import SuiteView.Files.Tree

/-!
# Writing a file

A path is followed through directories only. Putting a file where no directory stands thus leaves
every walk as it was, so a file that has been written stands where the same path leads afterwards.
-/

namespace SuiteView.FileTree

variable {t : FileTree} {place : Place} {p : Path} {content : List UInt8}

/-- A walk that arrives does so also when something is put where no directory stands. -/
theorem walk_put (h : t.item? place ≠ some .directory) (item : Item) {start target : Place}
    {names : List FileName} (hwalk : t.walk start names = .ok target) :
    (t.put place item).walk start names = .ok target := by
  induction names generalizing start with
  | nil => exact hwalk
  | cons name rest ih =>
    simp only [walk] at hwalk
    split at hwalk
    next hdirectory =>
      have hne : start ≠ place := fun he => h (he ▸ hdirectory)
      simp only [walk, item?_put_of_ne t item hne, hdirectory]
      split at hwalk
      next hup =>
        rw [if_pos hup]
        exact ih hwalk
      next hdown =>
        rw [if_neg hdown]
        split at hwalk
        · cases hwalk
        next hshort =>
          rw [if_neg hshort]
          exact ih hwalk
    · cases hwalk
    · cases hwalk

theorem locate_put (h : t.item? place ≠ some .directory) (item : Item) {target : Place}
    (hlocate : t.locate p = .ok target) : (t.put place item).locate p = .ok target := by
  have hstart : (t.put place item).start p = t.start p := rfl
  unfold locate at hlocate ⊢
  split at hlocate
  · cases hlocate
  · simp only [hstart]
    split at hlocate
    · cases hlocate
    next hzero =>
      rw [if_neg hzero]
      split at hlocate
      · cases hlocate
      next hlong =>
        rw [if_neg hlong]
        split at hlocate
        next found hwalk =>
          rw [walk_put h item hwalk]
          exact hlocate
        · cases hlocate

/-- Whether a path leads to a sink. -/
def isSink (t : FileTree) (p : Path) : Bool :=
  match t.locate p with
  | .ok place => t.item? place = some .sink
  | .error _ => false

theorem write_stands {t' : FileTree} (h : t.write p content = .ok t') (hsink : t'.isSink p = false) :
    ∃ place, t'.locate p = .ok place ∧ t'.item? place = some (.file content) := by
  unfold write at h
  split at h
  · cases h
  next place hlocate =>
    refine ⟨place, ?_⟩
    split at h
    · cases h
    next htaken =>
      cases h
      simp [isSink, hlocate, htaken] at hsink
    next hdirectory _ =>
      cases h
      exact ⟨locate_put hdirectory _ hlocate, item?_put_self t place _⟩

theorem writeText_stands {t' : FileTree} {text : String} (h : t.writeText p text = (t', .ok ()))
    (hsink : t'.isSink p = false) :
    ∃ place, t'.locate p = .ok place ∧ t'.item? place = some (.file (Text.encode text)) := by
  unfold writeText at h
  split at h
  next t₁ _ =>
    cases hwrite : t₁.write p (Text.encode text) with
    | error cause =>
      rw [hwrite] at h
      cases h
    | ok written =>
      rw [hwrite] at h
      cases h
      exact write_stands hwrite hsink
  · cases h

end SuiteView.FileTree
