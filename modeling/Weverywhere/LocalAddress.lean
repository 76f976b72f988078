import Weverywhere.Configuration
import Weverywhere.SharedBits
import Mathlib.Data.List.MinMax

/-!
The own address a node reports to a caller (`local_addr_facing` in
`src/src/net_utils.rs`): among the addresses of its interfaces the one that shares the
most leading bits with the caller's. What the loop ends with is the `argmax` of the
addresses it does not pass over.
-/
namespace Weverywhere.LocalAddress

open Weverywhere.Configuration SharedBits

/-- `std::net::IpAddr`. -/
inductive IpAddr
  | v4 (ip : Ipv4Addr)
  | v6 (ip : Ipv6Addr)
  deriving DecidableEq

namespace IpAddr

def isLoopback : IpAddr → Bool
  | v4 ip => ip.extractLsb' 24 8 == 127#8
  | v6 ip => ip == 1#128

def isUnspecified : IpAddr → Bool
  | v4 ip => ip == 0#32
  | v6 ip => ip == 0#128

end IpAddr

def sameFamily : IpAddr → IpAddr → Bool
  | .v4 _, .v4 _ => true
  | .v6 _, .v6 _ => true
  | _, _ => false

def commonPrefixBits : IpAddr → IpAddr → ℕ
  | .v4 a, .v4 b => sharedBits a b
  | .v6 a, .v6 b => sharedBits a b
  | _, _ => 0

/-- Index, name and addresses, as `get_interfaces` lists them. -/
abbrev Interface := UInt32 × String × List IpAddr

/-- The body of the inner loop; `best` is the address kept so far and its bits. -/
def considerAddr (peer : IpAddr) (best : Option (ℕ × IpAddr)) (addr : IpAddr) :
    Option (ℕ × IpAddr) :=
  if !sameFamily addr peer || addr.isUnspecified then best
  else if addr.isLoopback && !peer.isLoopback then best
  else
    let bits := commonPrefixBits addr peer
    match best with
    | none => some (bits, addr)
    | some (bestBits, _) => if bits > bestBits then some (bits, addr) else best

def localAddrFacing (interfaces : List Interface) (peer : IpAddr) : Option IpAddr :=
  (interfaces.foldl (fun best iface => iface.2.2.foldl (considerAddr peer) best) none).map Prod.snd

/-- All addresses in interface order. -/
def addresses (interfaces : List Interface) : List IpAddr :=
  interfaces.flatMap fun iface => iface.2.2

/-- An address the peer may be told. -/
structure Eligible (peer addr : IpAddr) : Prop where
  family : sameFamily addr peer = true
  specified : addr.isUnspecified = false
  loopback : addr.isLoopback = true → peer.isLoopback = true

instance (peer addr : IpAddr) : Decidable (Eligible peer addr) :=
  decidable_of_iff (sameFamily addr peer = true ∧ addr.isUnspecified = false ∧
    (addr.isLoopback = true → peer.isLoopback = true))
    ⟨fun h => ⟨h.1, h.2.1, h.2.2⟩, fun h => ⟨h.family, h.specified, h.loopback⟩⟩

/-- The first `p` bits are the same, of addresses of one family. -/
def OnOneNetwork (p : ℕ) : IpAddr → IpAddr → Prop
  | .v4 a, .v4 b => SharesBits p a b
  | .v6 a, .v6 b => SharesBits p a b
  | _, _ => False

/-- The address of the best kept so far. -/
def keeps (peer : IpAddr) (best : Option IpAddr) : Option (ℕ × IpAddr) :=
  best.map fun addr => (commonPrefixBits addr peer, addr)

/-! The loop is an `argmax`. -/

theorem considerAddr_of_eligible {peer addr : IpAddr} (h : Eligible peer addr)
    (best : Option IpAddr) :
    considerAddr peer (keeps peer best) addr = keeps peer (List.argAux
      (fun b c => commonPrefixBits c peer < commonPrefixBits b peer) best addr) := by
  have hfamily : (!sameFamily addr peer || addr.isUnspecified) = false := by
    rw [h.family, h.specified]
    rfl
  have hloopback : (addr.isLoopback && !peer.isLoopback) = false := by
    cases haddr : addr.isLoopback with
    | false => rfl
    | true =>
      rw [h.loopback haddr]
      rfl
  rw [considerAddr, hfamily, hloopback]
  cases best with
  | none => rfl
  | some addr' =>
    by_cases hmore : commonPrefixBits addr' peer < commonPrefixBits addr peer
    · simp [keeps, List.argAux, hmore]
    · simp [keeps, List.argAux, hmore]

theorem considerAddr_of_not_eligible {peer addr : IpAddr} (h : ¬ Eligible peer addr)
    (best : Option (ℕ × IpAddr)) : considerAddr peer best addr = best := by
  rw [considerAddr]
  split_ifs with hfamily hloopback
  · rfl
  · rfl
  · simp only [Bool.or_eq_true, Bool.not_eq_true', not_or, Bool.not_eq_false,
      Bool.not_eq_true] at hfamily
    refine absurd ⟨hfamily.1, hfamily.2, ?_⟩ h
    intro haddr
    simpa [haddr] using hloopback

theorem foldl_considerAddr (peer : IpAddr) (addrs : List IpAddr) (best : Option IpAddr) :
    addrs.foldl (considerAddr peer) (keeps peer best) =
      keeps peer ((addrs.filter fun addr => Eligible peer addr).foldl (List.argAux
        fun b c => commonPrefixBits c peer < commonPrefixBits b peer) best) := by
  induction addrs generalizing best with
  | nil => rfl
  | cons addr addrs ih =>
    by_cases h : Eligible peer addr
    · rw [List.filter_cons_of_pos (by simpa using h), List.foldl_cons, List.foldl_cons,
        considerAddr_of_eligible h, ih]
    · rw [List.filter_cons_of_neg (by simpa using h), List.foldl_cons,
        considerAddr_of_not_eligible h, ih]

theorem localAddrFacing_eq_argmax (interfaces : List Interface) (peer : IpAddr) :
    localAddrFacing interfaces peer =
      ((addresses interfaces).filter fun addr => Eligible peer addr).argmax
        fun addr => commonPrefixBits addr peer := by
  have hloop := foldl_considerAddr peer (addresses interfaces) none
  rw [addresses, List.foldl_flatMap] at hloop
  rw [localAddrFacing, addresses, List.argmax]
  change Option.map Prod.snd (interfaces.foldl _ (keeps peer none)) = _
  rw [hloop, keeps, Option.map_map]
  exact Option.map_id'

/-! What the bits say of networks. -/

theorem commonPrefixBits_le_iff {peer a b : IpAddr} (ha : sameFamily a peer = true)
    (hb : sameFamily b peer = true) :
    commonPrefixBits b peer ≤ commonPrefixBits a peer ↔
      ∀ p, OnOneNetwork p b peer → OnOneNetwork p a peer := by
  cases peer with
  | v4 peer =>
    cases a with
    | v4 a =>
      cases b with
      | v4 b => exact sharedBits_le_iff
      | v6 b => cases hb
    | v6 a => cases ha
  | v6 peer =>
    cases a with
    | v4 a => cases ha
    | v6 a =>
      cases b with
      | v4 b => cases hb
      | v6 b => exact sharedBits_le_iff

/-- The `argmax` is the first of its kind. -/
theorem lt_of_before_argmax {α : Type} [DecidableEq α] {f : α → ℕ} {l before after : List α}
    {a b : α} (h : a ∈ l.argmax f) (hsplit : l = before ++ a :: after) (hfirst : a ∉ before)
    (hb : b ∈ before) : f b < f a := by
  by_contra hle
  have hbl : b ∈ l := hsplit ▸ List.mem_append_left _ hb
  have hindex := List.index_of_argmax h hbl (Nat.le_of_not_lt hle)
  rw [hsplit, List.idxOf_append_of_notMem hfirst, List.idxOf_cons_self,
    List.idxOf_append_of_mem hb] at hindex
  have hbefore := List.idxOf_lt_length_of_mem hb
  omega

/-- For all interfaces and every peer: there is no answer exactly when no address is
eligible, and otherwise the answer is an eligible address on every network of the peer
that any eligible address is on, the first such in interface order. -/
theorem local_addr_facing_best (interfaces : List Interface) (peer : IpAddr) :
    (localAddrFacing interfaces peer = none ↔
      ∀ addr ∈ addresses interfaces, ¬ Eligible peer addr) ∧
    ∀ a, localAddrFacing interfaces peer = some a →
      Eligible peer a ∧
      (∀ p, (∃ b ∈ addresses interfaces, Eligible peer b ∧ OnOneNetwork p b peer) →
        OnOneNetwork p a peer) ∧
      ∃ before after, addresses interfaces = before ++ a :: after ∧
        ∀ b ∈ before, Eligible peer b → ∃ p, OnOneNetwork p a peer ∧ ¬ OnOneNetwork p b peer := by
  rw [localAddrFacing_eq_argmax]
  constructor
  · simp [List.filter_eq_nil_iff]
  · intro a ha
    have hmem := List.mem_filter.mp (List.argmax_mem ha)
    have heligible : Eligible peer a := of_decide_eq_true hmem.2
    refine ⟨heligible, ?_, ?_⟩
    · intro p hshared
      obtain ⟨b, hb, hbe, hp⟩ := hshared
      have hbest := List.le_of_mem_argmax (List.mem_filter.mpr ⟨hb, decide_eq_true hbe⟩) ha
      exact (commonPrefixBits_le_iff heligible.family hbe.family).mp hbest p hp
    · obtain ⟨before, after, hsplit, hfirst⟩ := List.eq_append_cons_of_mem hmem.1
      refine ⟨before, after, hsplit, ?_⟩
      intro b hb hbe
      have hfilter : (addresses interfaces).filter (fun addr => Eligible peer addr) =
          before.filter (fun addr => Eligible peer addr) ++
            a :: after.filter fun addr => Eligible peer addr := by
        rw [hsplit, List.filter_append, List.filter_cons_of_pos (by simpa using heligible)]
      have hless := lt_of_before_argmax ha hfilter
        (fun h => hfirst (List.mem_of_mem_filter h))
        (List.mem_filter.mpr ⟨hb, decide_eq_true hbe⟩)
      rw [← Nat.not_le, commonPrefixBits_le_iff hbe.family heligible.family] at hless
      exact Classical.not_forall.mp hless |>.imp fun p hp => Classical.not_imp.mp hp

/-- A machine with a loopback address and one in the peer's network. -/
def twoInterfaces : List Interface :=
  [(1, "lo", [.v4 0x7F000001]), (2, "eth0", [.v6 1, .v4 0x0A000009, .v4 0xC0A80114])]

theorem two_interfaces_best :
    localAddrFacing twoInterfaces (.v4 0xC0A80102) = some (.v4 0xC0A80114) ∧
      Eligible (.v4 0xC0A80102) (.v4 0xC0A80114) := by
  have hanswer : localAddrFacing twoInterfaces (.v4 0xC0A80102) = some (.v4 0xC0A80114) := by
    decide +kernel
  exact ⟨hanswer, ((local_addr_facing_best twoInterfaces _).2 _ hanswer).1⟩

end Weverywhere.LocalAddress
