import SuiteView.CommandLine.Stream

/-!
# What a stream prints

A stream prints the lines that stand before the first it refuses. A run all of whose text the stream
writes is the same run on the stream, and so is one that ends with a code there. One that lists a line
which the stream refuses ends there: it has printed the lines before and changed no file.
-/

namespace SuiteView.CommandLine

namespace Stdout

variable {out : Stdout} {ls before : List Text} {position : Nat} {halves : Text}

/-- The stream stops at the first line with a half that it does not write: what stands before that line,
where the first such half stands in it, and the halves that follow each other from there. -/
inductive StopsAt (out : Stdout) : List Text → List Text → Nat → Text → Prop
  | intro {before after : List Text} {head tail : Text} {half : Fin 0x800}
      (hbefore : ∀ line ∈ before, ∀ c ∈ line, out.writes c = true)
      (hhead : ∀ c ∈ head, out.writes c = true) (hhalf : out.writesHalf half = false) :
      StopsAt out (before ++ (head ++ .surrogate half :: tail) :: after) before head.length
        (.surrogate half :: tail.takeWhile CodePoint.isSurrogate)

theorem print_append (hbefore : ∀ line ∈ before, ∀ c ∈ line, out.writes c = true) (ls : List Text) :
    out.print (before ++ ls) = (before ++ (out.print ls).1, (out.print ls).2) := by
  induction before with
  | nil => rfl
  | cons line before ih =>
    obtain ⟨hline, hrest⟩ := List.forall_mem_cons.mp hbefore
    have hnone : line.unwritten? out.writes 0 = none := Text.unwritten?_eq_none_iff.mpr hline
    rw [List.cons_append, print, hnone]
    simp only [ih hrest, List.cons_append]

theorem print_of_writes (h : ∀ line ∈ ls, ∀ c ∈ line, out.writes c = true) :
    out.print ls = (ls, .ok ()) := by
  have hprint := print_append h []
  simpa [print] using hprint

theorem StopsAt.print (h : out.StopsAt ls before position halves) :
    out.print ls = (before, .error (.unprintable position halves)) := by
  cases h with
  | @intro before after head tail half hbefore hhead hhalf =>
    have hplace : (head ++ .surrogate half :: tail).unwritten? out.writes 0 =
        some (head.length, .surrogate half :: tail.takeWhile CodePoint.isSurrogate) := by
      rw [Text.unwritten?_append hhead, Text.unwritten?_cons hhalf, Nat.zero_add,
        List.takeWhile_cons_of_pos rfl]
    rw [print_append hbefore, Stdout.print, hplace]
    simp

theorem print_cases (out : Stdout) (ls : List Text) :
    (∀ line ∈ ls, ∀ c ∈ line, out.writes c = true) ∨
      ∃ before position halves, out.StopsAt ls before position halves := by
  induction ls with
  | nil => exact .inl nofun
  | cons line rest ih =>
    cases hline : line.unwritten? out.writes 0 with
    | some place =>
      obtain ⟨head, c, tail, rfl, hhead, hc⟩ := Text.exists_of_unwritten?_eq_some hline
      cases c with
      | char c => cases hc
      | surrogate half =>
        -- The very first line is refused, so nothing stands before it.
        have hnone : ∀ shown ∈ ([] : List Text), ∀ d ∈ shown, out.writes d = true := nofun
        exact .inr ⟨[], _, _, .intro hnone hhead hc⟩
    | none =>
      have hwrites : ∀ c ∈ line, out.writes c = true := Text.unwritten?_eq_none_iff.mp hline
      rcases ih with hrest | ⟨before, position, halves, hstops⟩
      · exact .inl (List.forall_mem_cons.mpr ⟨hwrites, hrest⟩)
      · cases hstops with
        | intro hbefore hhead hhalf =>
          have hfirst := List.forall_mem_cons.mpr ⟨hwrites, hbefore⟩
          exact .inr ⟨_, _, _, .intro hfirst hhead hhalf⟩

end Stdout

variable {out : Stdout} {files : FileTree} {o : Options} {settings : Settings} {b : Bridge}
  {l : Listing} {time : Timestamp}

/-! ### What is listed -/

theorem toList_of_listed (hprepare : prepare files o = .ok (settings, b))
    (hlisted : listed b o = .ok l) : toList? files o = some (settings, b, l) := by
  rw [toList?, hprepare]
  simp only [hlisted]

theorem listed_of_toList (h : toList? files o = some (settings, b, l)) :
    prepare files o = .ok (settings, b) ∧ listed b o = .ok l := by
  unfold toList? at h
  split at h
  · cases h
  · rename_i s b' hprepare
    split at h
    · cases h
    · rename_i l' hlisted
      cases h
      exact ⟨hprepare, hlisted⟩

theorem runOptions_of_toList (h : toList? files o = some (settings, b, l)) (time : Timestamp) :
    runOptions files o time = ⟨(finish files o settings b l time).1,
      lines (l.lines b ++ (finish files o settings b l time).2.1), lines l.warnings,
      (finish files o settings b l time).2.2⟩ := by
  obtain ⟨hprepare, hlisted⟩ := listed_of_toList h
  rw [runOptions, hprepare]
  simp only [hlisted]
  rfl

theorem run_of_parse {arguments : List String} (hparse : Options.parse arguments = .ok o)
    (time : Timestamp) : run files arguments time = runOptions files o time := by
  rw [run, hparse]

theorem runOn_of_parse {arguments : List String} (hparse : Options.parse arguments = .ok o)
    (time : Timestamp) : runOn out files arguments time = runOptionsOn out files o time := by
  rw [runOn, hparse]

/-! ### Runs that the stream writes -/

theorem writes_of_lines {ls : List Text} (h : ∀ c ∈ lines ls, out.writes c = true) :
    ∀ line ∈ ls, ∀ c ∈ line, out.writes c = true := by
  intro line hline c hc
  apply h
  exact List.mem_flatMap.mpr ⟨line, hline, List.mem_append_left _ hc⟩

theorem tell_of_writes (hshown : ∀ line ∈ l.lines b, ∀ c ∈ line, out.writes c = true)
    (hnamed : ∀ line ∈ (finish files o settings b l time).2.1, ∀ c ∈ line, out.writes c = true) :
    tell out files o settings b l time = Run.onStream ⟨(finish files o settings b l time).1,
      lines (l.lines b ++ (finish files o settings b l time).2.1), lines l.warnings,
      (finish files o settings b l time).2.2⟩ := by
  simp only [tell, Stdout.print_of_writes hshown, Stdout.print_of_writes hnamed]
  rfl

theorem writes_of_tell {code : Nat} (h : (tell out files o settings b l time).status = .ok code) :
    (∀ line ∈ l.lines b, ∀ c ∈ line, out.writes c = true) ∧
      ∀ line ∈ (finish files o settings b l time).2.1, ∀ c ∈ line, out.writes c = true := by
  unfold tell at h
  rcases out.print_cases (l.lines b) with hshown | ⟨before, position, halves, hstops⟩
  · rw [Stdout.print_of_writes hshown] at h
    rcases out.print_cases (finish files o settings b l time).2.1 with
      hnamed | ⟨before, position, halves, hstops⟩
    · exact ⟨hshown, hnamed⟩
    · simp only [hstops.print] at h
      cases h
  · rw [hstops.print] at h
    cases h

/-- A run whose standard output the stream writes is the same on the stream. -/
theorem runOn_of_writes {arguments : List String}
    (h : ∀ c ∈ (run files arguments time).stdout, out.writes c = true) :
    runOn out files arguments time = (run files arguments time).onStream := by
  cases hparse : Options.parse arguments with
  | error stop => rw [runOn, hparse]
  | ok o =>
    rw [run_of_parse hparse] at h ⊢
    rw [runOn_of_parse hparse]
    cases hlist : toList? files o with
    | none => rw [runOptionsOn, hlist]
    | some entry =>
      obtain ⟨settings, b, l⟩ := entry
      -- The text is that of the listing and of the line that names the report, one behind the other.
      rw [runOptions_of_toList hlist] at h ⊢
      have hlines := List.forall_mem_append.mp (writes_of_lines h)
      rw [runOptionsOn, hlist]
      exact tell_of_writes hlines.1 hlines.2

/-- A run on a stream that ends with a code is the run: what holds of runs that end holds on every
stream. -/
theorem runOn_of_ends {arguments : List String} {code : Nat}
    (h : (runOn out files arguments time).status = .ok code) :
    runOn out files arguments time = (run files arguments time).onStream := by
  cases hparse : Options.parse arguments with
  | error stop => rw [runOn, hparse]
  | ok o =>
    rw [run_of_parse hparse]
    rw [runOn_of_parse hparse] at h ⊢
    cases hlist : toList? files o with
    | none => rw [runOptionsOn, hlist]
    | some entry =>
      obtain ⟨settings, b, l⟩ := entry
      rw [runOptionsOn, hlist] at h ⊢
      rw [runOptions_of_toList hlist]
      have hlines := writes_of_tell h
      exact tell_of_writes hlines.1 hlines.2

theorem runOn_everyText (files : FileTree) (arguments : List String) (time : Timestamp) :
    runOn .everyText files arguments time = (run files arguments time).onStream := by
  apply runOn_of_writes
  intro c _
  cases c with
  | char | surrogate => rfl

/-! ### Ways a run goes -/

theorem runOptionsOn_of_refused {cause : Refusal} (h : prepare files o = .error (.refused cause)) :
    runOptionsOn out files o time = ⟨.ok 1, "", lines [cause.message], files⟩ := by
  rw [runOptionsOn, toList?, runOptions, h]
  rfl

theorem runOptionsOn_of_broken {cause : Breakdown} (h : prepare files o = .error (.broken cause)) :
    runOptionsOn out files o time = ⟨.error (.broken cause), "", "", files⟩ := by
  rw [runOptionsOn, toList?, runOptions, h]
  rfl

theorem runOptionsOn_of_notListed {cause : Breakdown} (hprepare : prepare files o = .ok (settings, b))
    (hlisted : listed b o = .error cause) :
    runOptionsOn out files o time = ⟨.error (.broken cause), "", "", files⟩ := by
  rw [runOptionsOn, toList?, runOptions, hprepare]
  simp only [hlisted]
  rfl

theorem runOptionsOn_of_writes (hlist : toList? files o = some (settings, b, l))
    (hwrites : ∀ line ∈ l.lines b, ∀ c ∈ line, out.writes c = true)
    (hfinish : finish files o settings b l time = (.ok 0, [], files)) :
    runOptionsOn out files o time = ⟨.ok 0, lines (l.lines b), lines l.warnings, files⟩ := by
  rw [runOptionsOn, hlist]
  simp only [tell, Stdout.print_of_writes hwrites, hfinish, Stdout.print, List.append_nil]
  rfl

theorem runOptionsOn_of_stopsAt (hlist : toList? files o = some (settings, b, l))
    {before : List Text} {position : Nat} {halves : Text}
    (hstops : out.StopsAt (l.lines b) before position halves) :
    runOptionsOn out files o time =
      ⟨.error (.unprintable position halves), lines before, "", files⟩ := by
  rw [runOptionsOn, hlist]
  simp only [tell, hstops.print]

end SuiteView.CommandLine
