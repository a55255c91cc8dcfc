import SuiteView.Settings

/-!
# Settings in use

Settings that are in use change their fields in place. Whoever asks for the fields is given a table
that may be written to as well. It is a copy: what is written to it never shows in the settings, whose
fields are at any time what the changes of the settings alone have made of them.
-/

namespace SuiteView

/-- Gives new values to the known fields; null stands for a value that is not given. -/
def Settings.setKnown (s : Settings) (rootLabel replay reportFile : Value) : Settings :=
  ((s.set rootLabelField rootLabel).set replayField replay).set reportFileField reportFile

/-- The tables that are there, by number: one is the settings' own, some were handed out. -/
structure OpenSettings where
  tables : List (Table Value)
  own : Nat
  handedOut : List Nat

namespace OpenSettings

/-- What is done with settings in use. The tables that were handed out are counted from zero. -/
inductive Action where
  | set (rootLabel replay reportFile : Value)
  | config
  | assign (copy : Nat) (name : Text) (v : Value)

def start (s : Settings) : OpenSettings := ⟨[s.fields], 0, []⟩

def settings (σ : OpenSettings) : Settings := ⟨σ.tables.getD σ.own []⟩

def write (σ : OpenSettings) (k : Nat) (f : Table Value → Table Value) : OpenSettings :=
  { σ with tables := σ.tables.modify k f }

/-- An assignment to a table that was not handed out is no action. -/
def step (σ : OpenSettings) : Action → OpenSettings
  | .set rootLabel replay reportFile =>
    σ.write σ.own fun fields => (Settings.setKnown ⟨fields⟩ rootLabel replay reportFile).fields
  | .config =>
    { σ with
      tables := σ.tables ++ [σ.settings.fields]
      handedOut := σ.handedOut ++ [σ.tables.length] }
  | .assign copy name v =>
    match σ.handedOut[copy]? with
    | some k => σ.write k (·.put name v)
    | none => σ

def run (σ : OpenSettings) (actions : List Action) : OpenSettings := actions.foldl step σ

/-- What an action is to change in the settings. -/
def Action.effect : Action → Settings → Settings
  | .set rootLabel replay reportFile, s => s.setKnown rootLabel replay reportFile
  | .config, s | .assign _ _ _, s => s

/-- The settings' own table is there and was never handed out. -/
structure Apart (σ : OpenSettings) : Prop where
  own_lt : σ.own < σ.tables.length
  own_kept : σ.own ∉ σ.handedOut

theorem start_apart (s : Settings) : (start s).Apart where
  own_lt := Nat.zero_lt_one
  own_kept := List.not_mem_nil

theorem start_settings (s : Settings) : (start s).settings = s := rfl

variable {σ : OpenSettings}

theorem write_own (h : σ.Apart) (f : Table Value → Table Value) :
    (σ.write σ.own f).settings = ⟨f σ.settings.fields⟩ := by
  have hown : σ.tables[σ.own]? = some (σ.tables.get ⟨σ.own, h.own_lt⟩) :=
    List.getElem?_eq_getElem h.own_lt
  simp [settings, write, List.getD, hown]

theorem write_other {k : Nat} (hk : k ≠ σ.own) (f : Table Value → Table Value) :
    (σ.write k f).settings = σ.settings := by
  simp [settings, write, List.getD, hk]

theorem step_apart (h : σ.Apart) (a : Action) : (σ.step a).Apart := by
  cases a with
  | set rootLabel replay reportFile =>
    refine ⟨?_, h.own_kept⟩
    simpa only [step, write, List.length_modify] using h.own_lt
  | config =>
    refine ⟨?_, ?_⟩
    · have hlt := h.own_lt
      simp only [step, List.length_append, List.length_singleton]
      omega
    · -- the new copy has a number that no table had before
      have hne : σ.own ≠ σ.tables.length := Nat.ne_of_lt h.own_lt
      simp [step, h.own_kept, hne]
  | assign copy name v =>
    simp only [step]
    split
    · exact ⟨by simpa only [write, List.length_modify] using h.own_lt, h.own_kept⟩
    · exact h

theorem step_settings (h : σ.Apart) (a : Action) : (σ.step a).settings = a.effect σ.settings := by
  cases a with
  | set rootLabel replay reportFile => exact write_own h _
  | config =>
    have hkept (fields : Table Value) : (σ.tables ++ [fields])[σ.own]? = σ.tables[σ.own]? :=
      List.getElem?_append_left h.own_lt
    simp [step, settings, List.getD, Action.effect, hkept]
  | assign copy name v =>
    simp only [step, Action.effect]
    split
    next k hk =>
      have hne : k ≠ σ.own := fun he => h.own_kept (he ▸ List.mem_of_getElem? hk)
      exact write_other hne _
    · rfl

theorem run_settings (h : σ.Apart) (actions : List Action) :
    (σ.run actions).settings = actions.foldl (fun s a => a.effect s) σ.settings := by
  induction actions generalizing σ with
  | nil => rfl
  | cons a rest ih =>
    have hrest := ih (step_apart h a)
    rw [step_settings h a] at hrest
    exact hrest

end OpenSettings

end SuiteView
