import Mathlib.Data.List.Basic

/-!
A listener that waits from one arrival to the next, each time only so long, and that
at some point begins no further wait. Arrivals are listed in the order of their times.
What matters is heard when it comes soon after the start, or soon after something that
was itself heard; anything else that comes does no harm.
-/
namespace Weverywhere.QuietWindow

section Listening

variable {α : Type*} (time : α → ℕ)

/-- What is heard, with the moment at which it is taken. `patience` tells until when a
wait begun at a moment lasts, if one is begun. -/
def heard (patience : ℕ → Option ℕ) : ℕ → List α → List (ℕ × α)
  | _, [] => []
  | now, x :: rest =>
    match patience now with
    | none => []
    | some late =>
      if late < time x then []
      else (max now (time x), x) :: heard patience (max now (time x)) rest

/-- The moment after the arrivals have been taken. -/
def momentAfter (now : ℕ) (arrivals : List α) : ℕ :=
  arrivals.foldl (fun now x => max now (time x)) now

theorem le_momentAfter (now : ℕ) (arrivals : List α) : now ≤ momentAfter time now arrivals ∧
    ∀ x ∈ arrivals, time x ≤ momentAfter time now arrivals := by
  induction arrivals generalizing now with
  | nil => simp [momentAfter]
  | cons x rest ih =>
    obtain ⟨hnow, hrest⟩ := ih (max now (time x))
    have hmoment : momentAfter time now (x :: rest) = momentAfter time (max now (time x)) rest :=
      rfl
    rw [hmoment]
    refine ⟨Nat.le_trans (Nat.le_max_left _ _) hnow, ?_⟩
    intro y hy
    rcases List.mem_cons.mp hy with rfl | hy
    · exact Nat.le_trans (Nat.le_max_right _ _) hnow
    · exact hrest y hy

variable {time} {patience : ℕ → Option ℕ} {start now : ℕ} {arrivals : List α}

theorem momentAfter_le {bound : ℕ} (hnow : now ≤ bound)
    (harrivals : ∀ x ∈ arrivals, time x ≤ bound) : momentAfter time now arrivals ≤ bound := by
  induction arrivals generalizing now with
  | nil => exact hnow
  | cons x rest ih =>
    apply ih
    · exact Nat.max_le.mpr ⟨hnow, harrivals x List.mem_cons_self⟩
    · exact fun y hy => harrivals y (List.mem_cons_of_mem x hy)

theorem mem_of_mem_heard {s : ℕ × α} (h : s ∈ heard time patience now arrivals) :
    s.2 ∈ arrivals := by
  induction arrivals generalizing now with
  | nil => simp [heard] at h
  | cons x rest ih =>
    rw [heard] at h
    split at h
    · simp at h
    · split_ifs at h
      · simp at h
      · rcases List.mem_cons.mp h with rfl | h
        · exact List.mem_cons_self
        · exact List.mem_cons_of_mem x (ih h)

/-- Nothing that matters is missed when a wait is begun and lasts whenever something
that matters is still to come. -/
theorem filter_heard (keep : α → Bool) (hsorted : arrivals.Pairwise fun x y => time x ≤ time y)
    (hwaits : ∀ front back, arrivals = front ++ back → (∃ y ∈ back, keep y = true) →
      ∃ late, patience (momentAfter time start front) = some late ∧
        ∀ x ∈ back.head?, time x ≤ late) :
    (heard time patience start arrivals).filter (fun s => keep s.2) =
      (arrivals.filter keep).map fun x => (max start (time x), x) := by
  suffices h : ∀ back front, arrivals = front ++ back →
      (heard time patience (momentAfter time start front) back).filter (fun s => keep s.2) =
        (back.filter keep).map fun x => (max start (time x), x) from h arrivals [] rfl
  intro back
  induction back with
  | nil => exact fun _ _ => rfl
  | cons x back ih =>
    intro front hsplit
    by_cases hmore : ∃ y ∈ x :: back, keep y = true
    · obtain ⟨late, hpatience, hhead⟩ := hwaits front (x :: back) hsplit hmore
      have hin : ¬ late < time x := Nat.not_lt.mpr (hhead x rfl)
      have hrest := ih (front ++ [x]) (by rw [hsplit, List.append_assoc, List.singleton_append])
      have hmoment : momentAfter time start (front ++ [x]) =
          max (momentAfter time start front) (time x) := by
        simp [momentAfter]
      -- what came before came no later, so the wait ends as `x` comes
      have htaken : max (momentAfter time start front) (time x) = max start (time x) := by
        rw [hsplit] at hsorted
        have hbefore : ∀ y ∈ front, time y ≤ max start (time x) := fun y hy =>
          Nat.le_trans ((List.pairwise_append.mp hsorted).2.2 y hy x List.mem_cons_self)
            (Nat.le_max_right _ _)
        have hle := momentAfter_le (Nat.le_max_left start (time x)) hbefore
        have hstart := (le_momentAfter time start front).1
        omega
      rw [hmoment, htaken] at hrest
      simp only [heard, hpatience, if_neg hin, htaken]
      rw [List.filter_cons, List.filter_cons, hrest]
      split_ifs
      · rw [List.map_cons]
      · rfl
    · have hnone : ∀ y ∈ x :: back, ¬ keep y = true := fun y hy hkeep => hmore ⟨y, hy, hkeep⟩
      rw [List.filter_eq_nil_iff.mpr hnone, List.map_nil, List.filter_eq_nil_iff]
      exact fun s hs => hnone s.2 (mem_of_mem_heard hs)

/-- What matters is all that is made use of. -/
theorem filterMap_heard {γ : Type*} {keep : α → Bool} {f : ℕ × α → Option γ}
    (hall : (heard time patience start arrivals).filter (fun s => keep s.2) =
      (arrivals.filter keep).map fun x => (max start (time x), x))
    (hkeep : ∀ s, keep s.2 = false → f s = none) :
    (heard time patience start arrivals).filterMap f =
      (arrivals.filter keep).filterMap fun x => f (max start (time x), x) := by
  have hused : ∀ s, (if keep s.2 = true then f s else none) = f s := by
    intro s
    split_ifs with hs
    · rfl
    · exact (hkeep s (Bool.not_eq_true _ ▸ hs)).symm
  calc (heard time patience start arrivals).filterMap f
      = ((heard time patience start arrivals).filter fun s => keep s.2).filterMap f := by
        simp only [List.filterMap_filter, hused]
    _ = (arrivals.filter keep).filterMap fun x => f (max start (time x), x) := by
        rw [hall, List.filterMap_map]
        rfl

/-- A listener that waits up to a deadline hears all that matters before it. -/
theorem filter_heard_deadline (keep : α → Bool) {deadline : ℕ}
    (hpatience : ∀ now < deadline, patience now = some deadline)
    (hsorted : arrivals.Pairwise fun x y => time x ≤ time y) (hstart : start < deadline)
    (hlimit : ∀ x ∈ arrivals, keep x = true → time x < deadline) :
    (heard time patience start arrivals).filter (fun s => keep s.2) =
      (arrivals.filter keep).map fun x => (max start (time x), x) := by
  refine filter_heard keep hsorted ?_
  rintro front back rfl ⟨y, hy, hkeep⟩
  obtain ⟨-, hback, hacross⟩ := List.pairwise_append.mp hsorted
  have hlast := hlimit y (List.mem_append_right front hy) hkeep
  refine ⟨deadline, hpatience _ ?_, ?_⟩
  · have hle : momentAfter time start front ≤ max start (time y) :=
      momentAfter_le (Nat.le_max_left _ _) fun x hx =>
        Nat.le_trans (hacross x hx y hy) (Nat.le_max_right _ _)
    omega
  · intro x hx
    cases back with
    | nil => simp at hx
    | cons first back =>
      obtain rfl : first = x := by simpa using hx
      rcases List.mem_cons.mp hy with rfl | hy
      · exact Nat.le_of_lt hlast
      · exact Nat.le_trans ((List.pairwise_cons.mp hback).1 y hy) (Nat.le_of_lt hlast)

/-! Silences. -/

/-- The moment comes soon after the start or after an arrival of which this holds. -/
inductive Fed (time : α → ℕ) (quiet start : ℕ) (arrivals : List α) : ℕ → Prop
  | start {t : ℕ} (h : t ≤ start + quiet) : Fed time quiet start arrivals t
  | after {t : ℕ} {x : α} (hx : x ∈ arrivals) (hfed : Fed time quiet start arrivals (time x))
      (hsoon : t ≤ time x + quiet) : Fed time quiet start arrivals t

variable {quiet limit : ℕ}

/-- A moment that is fed lies before any silence. -/
theorem Fed.le_of_silence {silence t : ℕ} (h : Fed time quiet start arrivals t)
    (hstart : start ≤ silence)
    (hsilence : ∀ x ∈ arrivals, time x ≤ silence ∨ silence + quiet < time x)
    (ht : t ≤ silence ∨ silence + quiet < t) : t ≤ silence := by
  induction h with
  | start hsoon => omega
  | after hx hfed hsoon ih =>
    have hbefore := ih (hsilence _ hx)
    omega

/-- A listener that gives up after a silence hears all that is fed. -/
theorem filter_heard_quiet (keep : α → Bool)
    (hpatience : ∀ now < limit, patience now = some (now + quiet))
    (hsorted : arrivals.Pairwise fun x y => time x ≤ time y) (hstart : start < limit)
    (hlimit : ∀ x ∈ arrivals, keep x = true → time x < limit)
    (hfed : ∀ x ∈ arrivals, keep x = true → Fed time quiet start arrivals (time x)) :
    (heard time patience start arrivals).filter (fun s => keep s.2) =
      (arrivals.filter keep).map fun x => (max start (time x), x) := by
  refine filter_heard keep hsorted ?_
  rintro front back rfl ⟨y, hy, hkeep⟩
  obtain ⟨-, hback, hacross⟩ := List.pairwise_append.mp hsorted
  have hlast := hlimit y (List.mem_append_right front hy) hkeep
  obtain ⟨hfirst, hbefore⟩ := le_momentAfter time start front
  refine ⟨_, hpatience _ ?_, ?_⟩
  · have hle : momentAfter time start front ≤ max start (time y) :=
      momentAfter_le (Nat.le_max_left _ _) fun x hx =>
        Nat.le_trans (hacross x hx y hy) (Nat.le_max_right _ _)
    omega
  · intro x hx
    cases back with
    | nil => simp at hx
    | cons first back =>
      obtain rfl : first = x := by simpa using hx
      by_contra hlate
      have hbehind : ∀ z ∈ first :: back, time first ≤ time z := by
        intro z hz
        rcases List.mem_cons.mp hz with rfl | hz
        · exact Nat.le_refl _
        · exact (List.pairwise_cons.mp hback).1 z hz
      -- all arrivals lie before the silence or, as `first` does, behind it
      have hsilence : ∀ z ∈ front ++ first :: back, time z ≤ momentAfter time start front ∨
          momentAfter time start front + quiet < time z := by
        intro z hz
        rcases List.mem_append.mp hz with hz | hz
        · exact .inl (hbefore z hz)
        · have hle := hbehind z hz
          omega
      have hmem := List.mem_append_right front hy
      have hle := (hfed y hmem hkeep).le_of_silence hfirst hsilence (hsilence y hmem)
      have hafter := hbehind y hy
      omega

end Listening

/-! Feeding carries over. -/

section Transfer

variable {α β : Type*} {time : α → ℕ} {time' : β → ℕ} {quiet start start' t : ℕ}
  {arrivals : List α} {arrivals' : List β}

/-- To arrivals that come a little later than they are due. -/
theorem Fed.late {slack : ℕ} (h : Fed time quiet start arrivals t)
    (hlate : ∀ x ∈ arrivals, ∃ y ∈ arrivals', time x ≤ time' y ∧ time' y ≤ time x + slack)
    (hstart : start ≤ start') {t' : ℕ} (ht : t' ≤ t + slack) :
    Fed time' (quiet + slack) start' arrivals' t' := by
  induction h generalizing t' with
  | start hsoon => exact .start (by omega)
  | after hx hfed hsoon ih =>
    obtain ⟨y, hy, hge, hle⟩ := hlate _ hx
    exact .after hy (ih hle) (by omega)

/-- To arrivals that come all later by the same time, behind one that is fed. -/
theorem Fed.behind {delay : ℕ} {first : β} (h : Fed time quiet start arrivals t)
    (hfirst : first ∈ arrivals') (hfed : Fed time' quiet start' arrivals' (time' first))
    (hstart : start + delay ≤ time' first)
    (hshift : ∀ x ∈ arrivals, ∃ y ∈ arrivals', time' y = time x + delay) :
    Fed time' quiet start' arrivals' (t + delay) := by
  induction h with
  | start hsoon => exact .after hfirst hfed (by omega)
  | after hx _ hsoon ih =>
    obtain ⟨y, hy, heq⟩ := hshift _ hx
    rw [← heq] at ih
    exact .after hy ih (by omega)

end Transfer

end Weverywhere.QuietWindow
