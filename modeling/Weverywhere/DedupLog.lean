import Weverywhere.BoundedQueue

/-!
An append-only log that refuses an entry whose key is among its most recent
ones. Entries without a key are always accepted. The log is stated for any
entries, keys and window length; a bounded store that forgets old keys and old
entries is compared with it.
-/
namespace Weverywhere.DedupLog

open BoundedQueue

variable {α κ : Type*} (key : α → Option κ) (window : ℕ)

/-- The keys of the last `window` accepted entries that have one. -/
def recentKeys (log : List α) : List κ := (log.filterMap key).rtake window

def IsRepeat (log : List α) (entry : α) : Prop :=
  ∃ k, key entry = some k ∧ k ∈ recentKeys key window log

theorem recentKeys_append_keyed (log : List α) (entry : α) (k : κ) (hk : key entry = some k) :
    recentKeys key window (log ++ [entry]) = (recentKeys key window log ++ [k]).rtake window := by
  simp only [recentKeys, List.filterMap_append, List.filterMap_cons, hk, List.filterMap_nil]
  exact (rtake_append_singleton _ _ _).symm

theorem recentKeys_append_unkeyed (log : List α) (entry : α) (hk : key entry = none) :
    recentKeys key window (log ++ [entry]) = recentKeys key window log := by
  simp [recentKeys, hk]

/-- An accepted entry repeats as long as fewer than `window` entries with a key
were accepted after it. -/
theorem isRepeat_of_recent (front back : List α) (entry : α) (k : κ) (hk : key entry = some k)
    (hback : (back.filterMap key).length < window) :
    IsRepeat key window (front ++ entry :: back) entry := by
  refine ⟨k, hk, ?_⟩
  simp only [recentKeys, List.filterMap_append, List.filterMap_cons, hk]
  exact mem_rtake_append _ _ _ _ hback

variable [DecidableEq κ]

instance (log : List α) (entry : α) : Decidable (IsRepeat key window log entry) :=
  match h : key entry with
  | none => isFalse (by rintro ⟨k, hk, -⟩; simp [h] at hk)
  | some k =>
      if hk : k ∈ recentKeys key window log then isTrue ⟨k, h, hk⟩
      else isFalse (by rintro ⟨k', hk', hmem⟩; simp_all)

/-- Append an entry unless it repeats a recent one. -/
def accept (log : List α) (entry : α) : List α :=
  if IsRepeat key window log entry then log else log ++ [entry]

/-- The log after a sequence of attempts. -/
def acceptAll (entries : List α) : List α := entries.foldl (accept key window) []

@[simp] theorem acceptAll_nil : acceptAll key window ([] : List α) = [] := rfl

theorem acceptAll_append_singleton (entries : List α) (entry : α) :
    acceptAll key window (entries ++ [entry]) =
      accept key window (acceptAll key window entries) entry := by
  simp [acceptAll]

/-- A key is refused while it is recent, so no recent key occurs twice. -/
theorem recentKeys_nodup (entries : List α) :
    (recentKeys key window (acceptAll key window entries)).Nodup := by
  induction entries using List.reverseRecOn with
  | nil => simp [recentKeys]
  | append_singleton entries entry ih =>
    rw [acceptAll_append_singleton]
    unfold accept
    split_ifs with hrepeat
    · exact ih
    · cases hk : key entry with
      | none => rwa [recentKeys_append_unkeyed key window _ _ hk]
      | some k =>
        rw [recentKeys_append_keyed key window _ _ k hk]
        have hfresh : k ∉ recentKeys key window (acceptAll key window entries) :=
          fun hmem => hrepeat ⟨k, hk, hmem⟩
        have hgrown : (recentKeys key window (acceptAll key window entries) ++ [k]).Nodup := by
          simpa [List.nodup_append] using ⟨ih, fun a ha heq => hfresh (heq ▸ ha)⟩
        exact hgrown.sublist (rtake_sublist _ _)

/-- Among the last entries, as many as the window is long, no key repeats. -/
theorem retained_keys_nodup (entries : List α) (cap : ℕ) (hcap : cap ≤ window) :
    (((acceptAll key window entries).rtake cap).filterMap key).Nodup := by
  have hsuffix := filterMap_rtake_suffix key (acceptAll key window entries) cap
  have hrecent := recentKeys_nodup key window entries
  rw [recentKeys] at hrecent
  have hshort : (((acceptAll key window entries).filterMap key).rtake cap).Nodup := by
    rw [← rtake_rtake _ hcap]
    exact hrecent.sublist (rtake_sublist _ _)
  exact hshort.sublist hsuffix.sublist

/-- The log only grows. -/
theorem prefix_foldl_accept (log : List α) (entries : List α) :
    log <+: entries.foldl (accept key window) log := by
  induction entries generalizing log with
  | nil => exact List.prefix_rfl
  | cons entry entries ih =>
    refine List.IsPrefix.trans ?_ (ih (accept key window log entry))
    unfold accept
    split_ifs
    · exact List.prefix_rfl
    · exact List.prefix_append _ _

end Weverywhere.DedupLog
