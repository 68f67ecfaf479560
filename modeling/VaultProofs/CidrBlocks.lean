import Mathlib.Algebra.Order.Ring.Nat
import VaultProofs.VaultEffects

/-!
Address blocks in CIDR form. Go keeps addresses in their 16-byte form, IPv4 ones as IPv4-mapped
addresses, but a mask is as long as the text it was read from.
-/

namespace VaultProofs.CidrBlocks

open GoStrings
open EffectPrograms (bind_eq_ok)
open VaultEffects (GoError)

abbrev IPv4 := Fin (2 ^ 32)

/-- The 16-byte form of an address. -/
abbrev IP := Fin (2 ^ 128)

def mapped (n : IPv4) : IP :=
  ⟨0xffff * 2 ^ 32 + n, by have := n.isLt; omega⟩

def to4 (ip : IP) : Option IPv4 :=
  if ip.val / 2 ^ 32 = 0xffff then some ⟨ip.val % 2 ^ 32, Nat.mod_lt _ (by decide)⟩ else none

def kept (width ones a : Nat) : Nat := a / 2 ^ (width - ones)

def masked {width : Nat} (ones : Nat) (a : Fin (2 ^ width)) : Fin (2 ^ width) :=
  ⟨kept width ones a * 2 ^ (width - ones), (Nat.div_mul_le_self _ _).trans_lt a.isLt⟩

/-- The text of a block: an IPv4 address with a mask of 32 bits, or an IPv6 address, possibly an
IPv4-mapped one, with one of 128 bits. -/
inductive Block where
  | v4 (ip : IPv4) (ones : Fin 33)
  | v6 (ip : IP) (ones : Fin 129)
  deriving DecidableEq

namespace Block

def ip : Block → IP
  | .v4 ip _ => mapped ip
  | .v6 ip _ => ip

def ones : Block → Nat
  | .v4 _ ones => ones
  | .v6 _ ones => ones

def network : Block → IP
  | .v4 ip ones => mapped (@masked 32 ones ip)
  | .v6 ip ones => @masked 128 ones ip

/-- The set bits of the last four bytes of the mask. -/
def lastOnes : Block → Nat
  | .v4 _ ones => ones
  | .v6 _ ones => ones - 96

def contains (b : Block) (ip : IP) : Bool :=
  match to4 b.network, to4 ip with
  | some number, some n => kept 32 b.lastOnes number = kept 32 b.lastOnes n
  | none, none => kept 128 b.ones b.network = kept 128 b.ones ip
  | _, _ => false

def zeroAddr (b : Block) : Bool := to4 b.ip = some 0 ∨ b.ip = 0

end Block

inductive Text (α : Type) where
  | empty
  | invalid (err : GoError)
  | of (value : α)

def errorf (text : String) : GoError := .message (ofString text)

def parseCIDR : Text Block → Except GoError Block
  | .empty => .error (errorf "invalid CIDR address: ")
  | .invalid err => .error err
  | .of block => .ok block

def ipBelongsToCIDR (ipAddr : Text IP) (cidr : Text Block) : Except GoError Bool :=
  match ipAddr with
  | .empty => .error (errorf "missing IP address")
  | .invalid _ => .error (errorf "invalid IP address")
  | .of ip => (parseCIDR cidr).map fun ipnet => ipnet.contains ip

def ipBelongsToCIDRBlocksSlice (ipAddr : Text IP) (cidrs : List (Text Block)) :
    Except GoError Bool :=
  match ipAddr, cidrs with
  | .empty, _ => .error (errorf "missing IP address")
  | _, [] => .error (errorf "missing CIDR blocks to be checked against")
  | .invalid _, _ => .error (errorf "invalid IP address")
  | .of ip, cidrs => cidrs.anyM (ipBelongsToCIDR (.of ip))

/-- A block with an empty mask is canonical only if its address is zero. -/
def Block.canonical (b : Block) : Bool := b.zeroAddr || b.ones != 0

def parseCanonical (cidr : Text Block) (role : String) : Except GoError Block :=
  match parseCIDR cidr with
  | .error err => .error (.wrapped s!"failed to parse the {role}" err)
  | .ok block =>
    if block.canonical then .ok block
    else .error (errorf s!"{role} is not in its canonical form")

def subset (cidr1 cidr2 : Text Block) : Except GoError Bool :=
  match cidr1, cidr2 with
  | .empty, _ => .error (errorf "missing CIDR to be checked against")
  | _, .empty => .error (errorf "missing CIDR that needs to be checked")
  | cidr1, cidr2 => do
      let net1 ← parseCanonical cidr1 "CIDR to be checked against"
      let net2 ← parseCanonical cidr2 "CIDR that needs to be checked"
      if net2.ones < net1.ones then return false
      -- the address of the network is printed and read again
      ipBelongsToCIDR (.of net2.network) cidr1

def subsetBlocks (cidrs1 cidrs2 : List (Text Block)) : Except GoError Bool :=
  if cidrs1.isEmpty then .error (errorf "missing CIDR blocks to be checked against")
  else if cidrs2.isEmpty then .error (errorf "missing CIDR blocks that needs to be checked")
  else cidrs2.allM fun cidr2 => cidrs1.anyM fun cidr1 => subset cidr1 cidr2

/-- A positive answer is right: the others accept what the checked blocks accept. -/
def Sound (cidrs1 cidrs2 : List (Text Block)) : Prop :=
  subsetBlocks cidrs1 cidrs2 = .ok true → ∀ ipAddr,
    ipBelongsToCIDRBlocksSlice ipAddr cidrs2 = .ok true →
      ipBelongsToCIDRBlocksSlice ipAddr cidrs1 = .ok true

def Reads (cidr : Text Block) (b : Block) : Prop := cidr = .of b ∧ b.canonical = true

/-- An IPv6 text whose network is an IPv4-mapped address, so that the mask is longer than the one
its addresses are compared with. -/
def Block.isMapped : Block → Bool
  | .v4 _ _ => false
  | .v6 ip ones => (to4 (Block.v6 ip ones).network).isSome

/-- An IPv4-mapped block cut down to the one address of its network. -/
def Block.host (b : Block) : Block :=
  match b.isMapped, to4 b.network with
  | true, some n => .v4 n 32
  | _, _ => b

/-- Every address in a block is in one of the blocks when the IPv4-mapped ones are cut down;
or some text is rejected by every check. -/
def Narrow (cidrs : List (Text Block)) : Prop :=
  (∀ cidr ∈ cidrs, ∃ b, Reads cidr b) →
    ∀ b, .of b ∈ cidrs → ∀ ip, b.contains ip = true →
      ∃ c, .of c ∈ cidrs ∧ c.host.contains ip = true

variable {ip : IP} {n : IPv4} {width ones a b : Nat}

theorem to4_eq_some : to4 ip = some n ↔ ip = mapped n := by
  have hval : (mapped n).val = 0xffff * 2 ^ 32 + n.val := rfl
  rw [to4, Fin.ext_iff, hval]
  split_ifs with h
  · simp only [Option.some_inj, Fin.ext_iff]
    omega
  · exact iff_of_false (by simp) (by omega)

theorem to4_eq_none : to4 ip = none ↔ ip.val / 2 ^ 32 ≠ 0xffff := by
  simp [to4]

theorem kept_mono {ones' : Nat} (h : kept width ones a = kept width ones b)
    (hle : ones' ≤ ones) : kept width ones' a = kept width ones' b := by
  have hsplit : ∀ c, kept width ones' c = kept width ones c / 2 ^ ((width - ones') - (width - ones)) := by
    intro c
    rw [kept, kept, Nat.div_div_eq_div_mul, ← Nat.pow_add]
    congr 2
    omega
  rw [hsplit, hsplit, h]

theorem kept_mapped {m : IPv4} (hones : ones ≤ 32) :
    kept 128 (96 + ones) (mapped n) = kept 128 (96 + ones) (mapped m) ↔
      kept 32 ones n = kept 32 ones m := by
  have hadd : ∀ m : IPv4,
      kept 128 (96 + ones) (mapped m) = kept 32 ones m + 0xffff * 2 ^ ones := by
    intro m
    have hpow : 0xffff * 2 ^ 32 = 0xffff * 2 ^ ones * 2 ^ (32 - ones) := by
      rw [Nat.mul_assoc, ← Nat.pow_add, Nat.add_sub_cancel' hones]
    rw [kept, kept, mapped, show 128 - (96 + ones) = 32 - ones by omega]
    dsimp only
    rw [hpow, Nat.add_comm, Nat.add_mul_div_right _ _ (Nat.two_pow_pos _)]
  rw [hadd, hadd]
  omega

variable {b c : Block}

def Block.depth : Block → Nat
  | .v4 _ ones => 96 + ones
  | .v6 _ ones => ones

theorem to4_network (h : b.depth < 96) : to4 b.network = none := by
  cases b with
  | v4 _ ones => rw [Block.depth] at h; omega
  | v6 ip ones =>
    rw [Block.depth] at h
    have hpow : 2 ^ (128 - ones.val) = 2 ^ 32 * (2 * 2 ^ (95 - ones.val)) := by
      rw [← Nat.pow_succ', ← Nat.pow_add]
      congr 1
      omega
    rw [to4_eq_none, Block.network, masked]
    dsimp only
    -- bit 32 is not kept, so the number above the last four bytes is even
    rw [hpow, Nat.mul_left_comm, Nat.mul_div_cancel_left _ (by decide), Nat.mul_left_comm]
    omega

theorem ip_of_kept (hdepth : 96 ≤ b.depth) (h : kept 128 b.depth b.network = kept 128 b.depth ip) :
    b.network.val / 2 ^ 32 = ip.val / 2 ^ 32 :=
  kept_mono h hdepth

theorem contains_iff : b.contains ip = true ↔
    kept 128 b.depth b.network = kept 128 b.depth ip ∧ (b.depth < 96 → to4 ip = none) := by
  have hlast : 96 ≤ b.depth → b.depth = 96 + b.lastOnes ∧ b.lastOnes ≤ 32 := by
    intro h
    cases b with
    | v4 _ ones => exact ⟨rfl, Nat.le_of_lt_succ ones.isLt⟩
    | v6 _ ones =>
      rw [Block.depth] at h
      rw [Block.depth, Block.lastOnes]
      omega
  rw [Block.contains]
  cases hnumber : to4 b.network with
  | some number =>
    have hdepth : 96 ≤ b.depth := by
      by_contra hlt
      cases hnumber.symm.trans (to4_network (not_le.mp hlt))
    obtain ⟨heq, hle⟩ := hlast hdepth
    rw [to4_eq_some] at hnumber
    cases hn : to4 ip with
    | some n =>
      rw [to4_eq_some] at hn
      rw [decide_eq_true_iff, heq, hnumber, hn, kept_mapped hle]
      exact (and_iff_left fun h => absurd h (by omega)).symm
    | none =>
      refine iff_of_false (by simp) fun ⟨h, _⟩ => ?_
      rw [to4_eq_none, ← ip_of_kept hdepth h, ← to4_eq_none, hnumber, to4_eq_some.mpr rfl] at hn
      cases hn
  | none =>
    have hv6 : b.depth = b.ones := by
      cases b with
      | v4 ip ones =>
        rw [Block.network, to4_eq_some.mpr rfl] at hnumber
        cases hnumber
      | v6 ip ones => rfl
    cases hn : to4 ip with
    | some n =>
      refine iff_of_false (by simp) fun ⟨h, hlow⟩ => ?_
      by_cases hdepth : b.depth < 96
      · cases hlow hdepth
      · rw [to4_eq_none, ip_of_kept (not_lt.mp hdepth) h, ← to4_eq_none, hn] at hnumber
        cases hnumber
    | none =>
      rw [decide_eq_true_iff, hv6]
      exact (and_iff_left fun _ => rfl).symm

theorem contains_network (b : Block) : b.contains b.network = true :=
  contains_iff.mpr ⟨rfl, to4_network⟩

theorem contains_of_network (hdepth : c.depth ≤ b.depth) (hnetwork : c.contains b.network = true)
    (h : b.contains ip = true) : c.contains ip = true := by
  obtain ⟨hsame, hfamily⟩ := contains_iff.mp hnetwork
  obtain ⟨hip, hlow⟩ := contains_iff.mp h
  refine contains_iff.mpr ⟨hsame.trans (kept_mono hip hdepth), fun hc => ?_⟩
  by_cases hb : b.depth < 96
  · exact hlow hb
  · rw [to4_eq_none, ← ip_of_kept (not_lt.mp hb) hip, ← to4_eq_none]
    exact hfamily hc

/-- The length of the mask is the right measure unless the block is IPv4-mapped. -/
theorem depth_le (hmapped : b.isMapped = false) (hones : c.ones ≤ b.ones)
    (hnetwork : c.contains b.network = true) : c.depth ≤ b.depth := by
  cases c with
  | v6 ip ones =>
    cases b with
    | v4 => exact hones.trans (Nat.le_add_left _ _)
    | v6 => exact hones
  | v4 ip ones =>
    cases b with
    | v4 => exact Nat.add_le_add_left hones _
    | v6 ip' ones' =>
      rw [Block.isMapped, Option.isSome_eq_false_iff, Option.isNone_iff_eq_none] at hmapped
      rw [Block.contains, hmapped] at hnetwork
      rw [Block.network, to4_eq_some.mpr rfl] at hnetwork
      cases hnetwork

variable {α : Type} {f : α → Except GoError Bool} {l before after : List α} {x : α}

theorem exists_of_anyM (h : l.anyM f = .ok true) :
    ∃ before x after, l = before ++ x :: after ∧ (∀ y ∈ before, f y = .ok false) ∧
      f x = .ok true := by
  induction l with
  | nil => cases h
  | cons x rest ih =>
    rw [List.anyM, bind_eq_ok] at h
    obtain ⟨answer, hx, h⟩ := h
    cases answer with
    | true => exact ⟨[], x, rest, rfl, by simp, hx⟩
    | false =>
      obtain ⟨before, y, after, rfl, hbefore, hy⟩ := ih h
      exact ⟨x :: before, y, after, rfl, List.forall_mem_cons.mpr ⟨hx, hbefore⟩, hy⟩

theorem anyM_of_split (hbefore : ∀ y ∈ before, ∃ answer, f y = .ok answer) (hx : f x = .ok true) :
    (before ++ x :: after).anyM f = .ok true := by
  induction before with
  | nil => exact bind_eq_ok.mpr ⟨true, hx, rfl⟩
  | cons y rest ih =>
    obtain ⟨⟨answer, hy⟩, hrest⟩ := List.forall_mem_cons.mp hbefore
    refine bind_eq_ok.mpr ⟨answer, hy, ?_⟩
    cases answer with
    | true => rfl
    | false => exact ih hrest

theorem anyM_of_mem (hl : ∀ y ∈ l, ∃ answer, f y = .ok answer) (hmem : x ∈ l)
    (hx : f x = .ok true) : l.anyM f = .ok true := by
  obtain ⟨before, after, rfl⟩ := List.append_of_mem hmem
  exact anyM_of_split (fun y hy => hl y (List.mem_append_left _ hy)) hx

theorem allM_eq_true : l.allM f = .ok true ↔ ∀ x ∈ l, f x = .ok true := by
  induction l with
  | nil => exact iff_of_true rfl (by simp)
  | cons x rest ih =>
    rw [List.forall_mem_cons, ← ih, List.allM, bind_eq_ok]
    constructor
    · rintro ⟨answer, hx, h⟩
      cases answer with
      | true => exact ⟨hx, h⟩
      | false => cases h
    · rintro ⟨hx, h⟩
      exact ⟨true, hx, h⟩

variable {cidr cidr1 cidr2 : Text Block} {ipAddr : Text IP}
  {cidrs cidrs1 cidrs2 : List (Text Block)}

theorem parseCanonical_eq_ok {role : String} : parseCanonical cidr role = .ok b ↔ Reads cidr b := by
  cases cidr with
  | empty | invalid err => exact iff_of_false nofun nofun
  | of block =>
    simp only [parseCanonical, parseCIDR, Reads, Text.of.injEq]
    split_ifs with h
    · rw [Except.ok.injEq]
      exact ⟨fun heq => ⟨heq, heq ▸ h⟩, fun heq => heq.1⟩
    · exact iff_of_false nofun fun ⟨heq, hb⟩ => h (heq ▸ hb)

theorem subset_eq_ok {r : Bool} : subset cidr1 cidr2 = .ok r ↔
    ∃ c b, Reads cidr1 c ∧ Reads cidr2 b ∧
      r = (decide (c.ones ≤ b.ones) && c.contains b.network) := by
  have hlast : ∀ c b : Block, Reads cidr1 c →
      ((if b.ones < c.ones then pure false else ipBelongsToCIDR (.of b.network) cidr1) = .ok r ↔
        r = (decide (c.ones ≤ b.ones) && c.contains b.network)) := by
    rintro c b ⟨rfl, -⟩
    split_ifs with hlt
    · rw [decide_eq_false (not_le.mpr hlt), Bool.false_and, eq_comm (a := r)]
      exact iff_of_eq (Except.ok.injEq _ _)
    · rw [decide_eq_true (not_lt.mp hlt), Bool.true_and, eq_comm (a := r)]
      exact iff_of_eq (Except.ok.injEq _ _)
  rw [subset.eq_def]
  split
  · exact iff_of_false nofun fun ⟨_, _, hc, _⟩ => nomatch hc.1
  · exact iff_of_false nofun fun ⟨_, _, _, hb, _⟩ => nomatch hb.1
  simp only [bind_eq_ok, parseCanonical_eq_ok]
  constructor
  · rintro ⟨c, hc, b, hb, hr⟩
    exact ⟨c, b, hc, hb, (hlast c b hc).mp hr⟩
  · rintro ⟨c, b, hc, hb, hr⟩
    exact ⟨c, hc, b, hb, (hlast c b hc).mpr hr⟩

theorem subsetBlocks_eq_true : subsetBlocks cidrs1 cidrs2 = .ok true ↔
    cidrs1 ≠ [] ∧ cidrs2 ≠ [] ∧ ∀ cidr2 ∈ cidrs2, cidrs1.anyM (subset · cidr2) = .ok true := by
  rw [subsetBlocks, ← allM_eq_true]
  split_ifs with h1 h2
  · exact iff_of_false nofun fun h => h.1 (List.isEmpty_iff.mp h1)
  · exact iff_of_false nofun fun h => h.2.1 (List.isEmpty_iff.mp h2)
  · exact ⟨fun h => ⟨fun h' => h1 (List.isEmpty_iff.mpr h'), fun h' => h2 (List.isEmpty_iff.mpr h'),
      h⟩, fun h => h.2.2⟩

theorem belongs_eq_true : ipBelongsToCIDRBlocksSlice ipAddr cidrs = .ok true ↔
    ∃ ip, ipAddr = .of ip ∧ cidrs.anyM (ipBelongsToCIDR (.of ip)) = .ok true := by
  rw [ipBelongsToCIDRBlocksSlice.eq_def]
  split
  · exact iff_of_false nofun fun ⟨_, h, _⟩ => nomatch h
  · exact iff_of_false nofun fun ⟨_, _, h⟩ => nomatch h
  · exact iff_of_false nofun fun ⟨_, h, _⟩ => nomatch h
  · simp only [Text.of.injEq, exists_eq_left']

theorem Reads.belongs (hb : Reads cidr b) : ipBelongsToCIDR (.of ip) cidr = .ok (b.contains ip) := by
  rw [hb.1]
  rfl

theorem host_cases (b : Block) :
    (∃ n, b.isMapped = true ∧ b.network = mapped n ∧ b.host = .v4 n 32) ∨
      b.isMapped = false ∧ b.host = b := by
  cases hmapped : b.isMapped with
  | false => exact .inr ⟨rfl, by rw [Block.host, hmapped]⟩
  | true =>
    cases b with
    | v4 ip ones => cases hmapped
    | v6 ip ones =>
      obtain ⟨n, hn⟩ := Option.isSome_iff_exists.mp hmapped
      exact .inl ⟨n, rfl, to4_eq_some.mp hn, by rw [Block.host, hmapped, hn]⟩

theorem contains_host {n : IPv4} : (Block.v4 n 32).contains ip = true ↔ ip = mapped n := by
  have hkept : ∀ a, kept 128 (Block.v4 n 32).depth a = a := Nat.div_one
  have hself : (Block.v4 n 32).network = mapped n :=
    congrArg mapped (Fin.ext ((Nat.mul_one _).trans (Nat.div_one _)))
  rw [contains_iff, hself, hkept, hkept, Fin.ext_iff, eq_comm]
  exact and_iff_left fun h => absurd h (by simp [Block.depth])

theorem belongs_of_subset (h : cidrs1.anyM (subset · (.of b)) = .ok true)
    (hcontains : b.host.contains ip = true) :
    ipBelongsToCIDRBlocksSlice (.of ip) cidrs1 = .ok true := by
  obtain ⟨before, cidr1, after, rfl, hbefore, hsubset⟩ := exists_of_anyM h
  obtain ⟨c, _, hc, ⟨⟨⟩, -⟩, hanswer⟩ := subset_eq_ok.mp hsubset
  rw [eq_comm, Bool.and_eq_true, decide_eq_true_iff] at hanswer
  refine belongs_eq_true.mpr ⟨ip, rfl, anyM_of_split (fun cidr hcidr => ?_) ?_⟩
  · obtain ⟨c', -, hc', -⟩ := subset_eq_ok.mp (hbefore cidr hcidr)
    exact ⟨_, hc'.belongs⟩
  rw [hc.belongs]
  refine congrArg Except.ok ?_
  rcases host_cases b with ⟨n, -, hnetwork, hhost⟩ | ⟨hmapped, hhost⟩
  · rw [hhost, contains_host] at hcontains
    rw [hcontains, ← hnetwork]
    exact hanswer.2
  · exact contains_of_network (depth_le hmapped hanswer.1 hanswer.2) hanswer.2
      (hhost ▸ hcontains)

theorem sound_of_narrow (h : Narrow cidrs2) : Sound cidrs1 cidrs2 := by
  intro hsubset ipAddr hbelongs
  obtain ⟨-, -, hall⟩ := subsetBlocks_eq_true.mp hsubset
  have hreads : ∀ cidr ∈ cidrs2, ∃ b, Reads cidr b := by
    intro cidr hmem
    obtain ⟨_, cidr1, _, _, _, hcidr⟩ := exists_of_anyM (hall cidr hmem)
    obtain ⟨_, b, _, hb, _⟩ := subset_eq_ok.mp hcidr
    exact ⟨b, hb⟩
  obtain ⟨ip, rfl, hany⟩ := belongs_eq_true.mp hbelongs
  obtain ⟨before, cidr, after, rfl, -, hcidr⟩ := exists_of_anyM hany
  obtain ⟨b, hb⟩ := hreads cidr (by simp)
  have hcontains : b.contains ip = true := Except.ok.inj (hb.belongs.symm.trans hcidr)
  obtain ⟨c, hmem, hc⟩ := h hreads b (hb.1 ▸ by simp) ip hcontains
  exact belongs_of_subset (hall _ hmem) hc

theorem canonical_host (hb : b.canonical = true) : b.host.canonical = true := by
  rcases host_cases b with ⟨n, -, -, hhost⟩ | ⟨-, hhost⟩
  · rw [hhost]
    exact Bool.or_true _
  · rw [hhost]
    exact hb

theorem subset_host (hb : b.canonical = true) : subset (.of b.host) (.of b) = .ok true := by
  refine subset_eq_ok.mpr ⟨b.host, b, ⟨rfl, canonical_host hb⟩, ⟨rfl, hb⟩, ?_⟩
  rcases host_cases b with ⟨n, hmapped, hnetwork, hhost⟩ | ⟨-, hhost⟩
  · -- a mask of less than 96 bits has no IPv4-mapped network
    have hlong : 96 ≤ b.depth := by
      by_contra hshort
      cases (to4_eq_some.mpr hnetwork).symm.trans (to4_network (not_le.mp hshort))
    have hones : 32 ≤ b.ones := by
      cases b with
      | v4 ip ones => cases hmapped
      | v6 ip ones => exact le_trans (by decide) hlong
    rw [hhost, contains_host.mpr hnetwork, Bool.and_true]
    exact (decide_eq_true hones).symm
  · rw [hhost, contains_network, decide_eq_true le_rfl]
    rfl

theorem narrow_of_sound (h : ∀ cidrs1, Sound cidrs1 cidrs2) : Narrow cidrs2 := by
  intro hreads b hmem ip hcontains
  have hcanonical : ∀ c, .of c ∈ cidrs2 → c.canonical = true := by
    intro c hc
    obtain ⟨_, ⟨⟩, hcanonical⟩ := hreads _ hc
    exact hcanonical
  let hosts : List (Text Block) := cidrs2.map fun
    | .of c => .of c.host
    | cidr => cidr
  have hhosts : ∀ cidr, cidr ∈ hosts ↔ ∃ c, .of c ∈ cidrs2 ∧ .of c.host = cidr := by
    intro cidr
    refine List.mem_map.trans ⟨?_, fun ⟨c, hc, heq⟩ => ⟨_, hc, heq⟩⟩
    rintro ⟨_, hin, heq⟩
    obtain ⟨c, rfl, -⟩ := hreads _ hin
    exact ⟨c, hin, heq⟩
  have hsubset : subsetBlocks hosts cidrs2 = .ok true := by
    refine subsetBlocks_eq_true.mpr ⟨List.ne_nil_of_mem ((hhosts _).mpr ⟨b, hmem, rfl⟩),
      List.ne_nil_of_mem hmem, fun cidr hcidr => ?_⟩
    obtain ⟨c, rfl, hc⟩ := hreads cidr hcidr
    refine anyM_of_mem (fun text htext => ?_) ((hhosts _).mpr ⟨c, hcidr, rfl⟩) (subset_host hc)
    obtain ⟨c', hc', rfl⟩ := (hhosts text).mp htext
    exact ⟨_, subset_eq_ok.mpr ⟨_, c, ⟨rfl, canonical_host (hcanonical c' hc')⟩, ⟨rfl, hc⟩, rfl⟩⟩
  have hbelongs : ipBelongsToCIDRBlocksSlice (.of ip) cidrs2 = .ok true := by
    refine belongs_eq_true.mpr ⟨ip, rfl, anyM_of_mem (fun cidr hcidr => ?_) hmem
      (congrArg Except.ok hcontains)⟩
    obtain ⟨c, hc⟩ := hreads cidr hcidr
    exact ⟨_, hc.belongs⟩
  obtain ⟨_, ⟨⟩, hany⟩ := belongs_eq_true.mp (h hosts hsubset _ hbelongs)
  obtain ⟨before, text, after, hsplit, -, htext⟩ := exists_of_anyM hany
  obtain ⟨c, hc, rfl⟩ := (hhosts text).mp (hsplit ▸ by simp)
  exact ⟨c, hc, Except.ok.inj htext⟩

/-- Positive answers about some blocks are right, whatever they are checked against, iff their
IPv4-mapped texts add only single addresses. -/
theorem subset_blocks_sound_iff (cidrs : List (Text Block)) :
    (∀ cidrs1, Sound cidrs1 cidrs) ↔ Narrow cidrs :=
  ⟨narrow_of_sound, fun h _ => sound_of_narrow h⟩

/-- 1.2.0.0/24 -/
def plainBlock : Block := .v4 0x01020000 24

/-- ::ffff:1.2.0.0/112 -/
def mappedBlock : Block := .v6 (mapped 0x01020000) 112

/-- The wider block passes for a part of the other one: 112 is not less than 24. -/
theorem mapped_text_passes_as_narrower :
    subsetBlocks [.of plainBlock] [.of mappedBlock] = .ok true ∧
      ipBelongsToCIDRBlocksSlice (.of (mapped 0x01020505)) [.of mappedBlock] = .ok true ∧
      ipBelongsToCIDRBlocksSlice (.of (mapped 0x01020505)) [.of plainBlock] = .ok false :=
  ⟨rfl, rfl, rfl⟩

end VaultProofs.CidrBlocks
