import VirtioCrypto.Octets.Memory

/-!
# Octets — scatter lists

A buffer in pieces: a list of segments of one memory, in the order its bytes have. All that
counts about it is the list of addresses it covers (`addrs`); reading through it is `gather`,
writing through it `scatter`. When no address occurs twice, what was scattered is gathered
back, and in any case nothing else changes.
-/

namespace Octets

/-- A run of addresses. -/
structure Seg where
  base : Nat
  length : Nat
deriving DecidableEq, Repr

namespace Scatter

/-- The address of every byte, in order. -/
def addrs : List Seg → List Nat
  | [] => []
  | s :: sg => List.range' s.base s.length ++ addrs sg

def gather (m : Memory) (as : List Nat) : Bytes := as.map m

def scatter (m : Memory) : List Nat → Bytes → Memory
  | a :: as, b :: bs => scatter (m.store a [b]) as bs
  | _, _ => m

@[simp] theorem length_gather (m : Memory) (as : List Nat) : (gather m as).length = as.length :=
  List.length_map _

/-- Scattering touches nothing but its addresses. -/
theorem scatter_of_notMem {m : Memory} {as : List Nat} {bs : Bytes} {x : Nat} (h : x ∉ as) :
    scatter m as bs x = m x := by
  induction as generalizing m bs with
  | nil => rfl
  | cons a as ih =>
    rw [List.mem_cons, not_or] at h
    cases bs with
    | nil => rfl
    | cons b bs => rw [scatter, ih h.2, Memory.store_byte_of_ne h.1]

theorem gather_congr {m m' : Memory} {as : List Nat} (h : ∀ x ∈ as, m x = m' x) :
    gather m as = gather m' as :=
  List.map_congr_left h

/-- What was scattered is gathered back. -/
theorem gather_scatter {m : Memory} {as : List Nat} {bs : Bytes} (hNodup : as.Nodup)
    (hLen : bs.length = as.length) : gather (scatter m as bs) as = bs := by
  induction as generalizing m bs with
  | nil =>
    rw [List.length_eq_zero_iff.mp hLen]
    rfl
  | cons a as ih =>
    obtain ⟨hNotMem, hNodup⟩ := List.nodup_cons.mp hNodup
    cases bs with
    | nil => cases hLen
    | cons b bs =>
      have hHead : scatter (m.store a [b]) as bs a = b := by
        rw [scatter_of_notMem hNotMem, Memory.store_byte_self]
      have hTail : gather (scatter (m.store a [b]) as bs) as = bs :=
        ih hNodup (Nat.succ.inj hLen)
      show scatter (m.store a [b]) as bs a :: gather (scatter (m.store a [b]) as bs) as = b :: bs
      rw [hHead, hTail]

/-- Scattering what is there changes nothing. -/
theorem scatter_gather (m : Memory) (as : List Nat) : scatter m as (gather m as) = m := by
  induction as with
  | nil => rfl
  | cons a as ih =>
    have hSame : m.store a [m a] = m := by
      funext x
      by_cases hx : x = a
      · rw [hx, Memory.store_byte_self]
      · exact Memory.store_byte_of_ne hx
    show scatter (m.store a [m a]) as (gather m as) = m
    rw [hSame, ih]

theorem gather_append (m : Memory) (as as' : List Nat) :
    gather m (as ++ as') = gather m as ++ gather m as' :=
  List.map_append

theorem gather_drop (m : Memory) (as : List Nat) (n : Nat) : gather m (as.drop n) = (gather m as).drop n :=
  List.map_drop

/-- Scattering in two parts, one after the other. -/
theorem scatter_append {m : Memory} {as as' : List Nat} {bs bs' : Bytes} (h : bs.length = as.length) :
    scatter m (as ++ as') (bs ++ bs') = scatter (scatter m as bs) as' bs' := by
  induction as generalizing m bs with
  | nil => rw [List.length_eq_zero_iff.mp h]; rfl
  | cons a as ih =>
    cases bs with
    | nil => cases h
    | cons b bs =>
      rw [List.cons_append, List.cons_append, scatter, ih (Nat.succ.inj h), scatter]

/-- Scattering again replaces what was scattered. -/
theorem scatter_scatter {m : Memory} {as : List Nat} {bs bs' : Bytes} (hNodup : as.Nodup)
    (hLen : bs'.length = as.length) : scatter (scatter m as bs) as bs' = scatter m as bs' := by
  funext x
  by_cases hx : x ∈ as
  · have hSame : gather (scatter (scatter m as bs) as bs') as = gather (scatter m as bs') as :=
      (gather_scatter hNodup hLen).trans (gather_scatter hNodup hLen).symm
    exact List.map_inj_left.mp hSame x hx
  · rw [scatter_of_notMem hx, scatter_of_notMem hx, scatter_of_notMem hx]

/-- Scattering elsewhere changes nothing that is gathered. -/
theorem gather_scatter_disjoint {m : Memory} {as as' : List Nat} {bs : Bytes}
    (h : ∀ x ∈ as', x ∉ as) : gather (scatter m as bs) as' = gather m as' :=
  gather_congr fun x hx => scatter_of_notMem (h x hx)

end Scatter

end Octets
