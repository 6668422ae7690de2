import Mathlib.Logic.Relation
import Mathlib.Tactic
import PascalJvm.Include.Expand
import PascalJvm.Proofs.Outcome

/-!
# The run of an expansion

Expansion walks through a text depth first: a directive leads into the text of its file, and at
the end of that text back to where the directive was. Here the walk is taken step by step, with a
stack of files to which a file is added when its text begins and from which it is removed when
its text ends (`step`). The stack always holds the open files, each once. A run ends with the
outcome of `expand`, which is a cycle exactly if the walk comes to a directive that goes back to
an open file.
-/
namespace PascalJvm.Include

open Files

section Equations

variable {store : Store} {base : String} {opened : List Location} {style : CommentStyle}
  {text body path : List Char} {rest : List Piece}

lemma expandPieces_plain : expandPieces store base opened (.plain text :: rest) = do
    return text ++ (← expandPieces store base opened rest) := by
  rw [expandPieces]

lemma expandPieces_comment (h : directive? body = none) :
    expandPieces store base opened (.comment style body :: rest) = do
      return (Piece.comment style body).text ++ (← expandPieces store base opened rest) := by
  rw [expandPieces, h]

lemma expandPieces_cycle (h : directive? body = some path) {shown : String}
    (hc : cyclePath? store opened (Path.join base (String.ofList path)) = some shown) :
    expandPieces store base opened (.comment style body :: rest) = Traced.fail (.cycle shown) := by
  rw [expandPieces, h]
  dsimp only
  split
  next hc' =>
    obtain rfl := Option.some.inj (hc.symm.trans hc')
    rfl
  next hc' => simp [hc] at hc'

lemma expandPieces_unreadable (h : directive? body = some path)
    (hc : cyclePath? store opened (Path.join base (String.ofList path)) = none) {e : FileError}
    (hf : store.file (Path.join base (String.ofList path)) = .error e) :
    expandPieces store base opened (.comment style body :: rest) =
      Traced.fail (.unreadable (Path.join base (String.ofList path)) e) := by
  rw [expandPieces, h]
  dsimp only
  split
  next hc' => simp [hc] at hc'
  next =>
    split
    next hf' =>
      obtain rfl := Except.error.inj (hf.symm.trans hf')
      rfl
    next hf' => simp [hf] at hf'

lemma expandPieces_include (h : directive? body = some path)
    (hc : cyclePath? store opened (Path.join base (String.ofList path)) = none) {l : Location}
    {inner : String} (hf : store.file (Path.join base (String.ofList path)) = .ok (l, inner)) :
    expandPieces store base opened (.comment style body :: rest) = do
      Traced.report (.including (Path.join base (String.ofList path)))
      let expanded ← expandPieces store
        ((Path.parent? (Path.join base (String.ofList path))).getD base) (l :: opened)
        (pieces inner.toList)
      return expanded ++ (← expandPieces store base opened rest) := by
  rw [expandPieces, h]
  dsimp only
  split
  next hc' => simp [hc] at hc'
  next =>
    split
    next hf' => simp [hf] at hf'
    next hf' =>
      rw [hf] at hf'
      cases hf'
      split
      rfl

end Equations

/-- A text that is being expanded: the file that it is from, unless it is the text that expansion
began with, the directory of its includes, and the pieces that are left. -/
structure Frame where
  file : Option Location
  base : String
  todo : List Piece

/-- The texts that are being expanded, the innermost first, the stack of files, and what is
written so far. -/
structure Config where
  frames : List Frame
  stack : List Location
  out : List Char

inductive Progress
  | next (c : Config)
  | stop (r : Except IncludeError (List Char))

/-- Take a file from the stack at the end of its text. -/
def close (stack : List Location) : Option Location → List Location
  | some l => stack.erase l
  | none => stack

/-- One step of an expansion. -/
def step (store : Store) : Config → Progress
  | ⟨[], _, out⟩ => .stop (.ok out)
  | ⟨⟨file, _, []⟩ :: frames, stack, out⟩ => .next ⟨frames, close stack file, out⟩
  | ⟨⟨file, base, .plain text :: rest⟩ :: frames, stack, out⟩ =>
      .next ⟨⟨file, base, rest⟩ :: frames, stack, out ++ text⟩
  | ⟨⟨file, base, .comment style body :: rest⟩ :: frames, stack, out⟩ =>
      match directive? body with
      | none =>
          .next ⟨⟨file, base, rest⟩ :: frames, stack, out ++ (Piece.comment style body).text⟩
      | some path =>
          let full := Path.join base (String.ofList path)
          match cyclePath? store stack full with
          | some shown => .stop (.error (.cycle shown))
          | none =>
              match store.file full with
              | .error e => .stop (.error (.unreadable full e))
              | .ok (l, text) =>
                  .next ⟨⟨some l, (Path.parent? full).getD base, pieces text.toList⟩ ::
                    ⟨file, base, rest⟩ :: frames, stack.insert l, out⟩

abbrev Steps (store : Store) : Config → Config → Prop :=
  Relation.ReflTransGen fun c d => step store c = .next d

def start (base : String) (text : List Char) : Config := ⟨[⟨none, base, pieces text⟩], [], []⟩

/-- The files whose texts are being expanded, the innermost first. -/
def openFiles (frames : List Frame) : List Location := frames.filterMap Frame.file

section Runs

variable {store : Store} {file : Option Location} {base : String} {frames : List Frame}
  {stack : List Location} {out body path : List Char} {style : CommentStyle} {rest : List Piece}

lemma step_comment (hd : directive? body = none) :
    step store ⟨⟨file, base, .comment style body :: rest⟩ :: frames, stack, out⟩ =
      .next ⟨⟨file, base, rest⟩ :: frames, stack, out ++ (Piece.comment style body).text⟩ := by
  simp only [step, hd]

lemma step_cycle (hd : directive? body = some path) {shown : String}
    (hc : cyclePath? store stack (Path.join base (String.ofList path)) = some shown) :
    step store ⟨⟨file, base, .comment style body :: rest⟩ :: frames, stack, out⟩ =
      .stop (.error (.cycle shown)) := by
  simp only [step, hd, hc]

lemma step_unreadable (hd : directive? body = some path)
    (hc : cyclePath? store stack (Path.join base (String.ofList path)) = none) {e : FileError}
    (hf : store.file (Path.join base (String.ofList path)) = .error e) :
    step store ⟨⟨file, base, .comment style body :: rest⟩ :: frames, stack, out⟩ =
      .stop (.error (.unreadable (Path.join base (String.ofList path)) e)) := by
  simp only [step, hd, hc, hf]

lemma step_include (hd : directive? body = some path)
    (hc : cyclePath? store stack (Path.join base (String.ofList path)) = none) {l : Location}
    {text : String} (hf : store.file (Path.join base (String.ofList path)) = .ok (l, text)) :
    step store ⟨⟨file, base, .comment style body :: rest⟩ :: frames, stack, out⟩ =
      .next ⟨⟨some l, (Path.parent? (Path.join base (String.ofList path))).getD base,
        pieces text.toList⟩ :: ⟨file, base, rest⟩ :: frames, stack.insert l, out⟩ := by
  simp only [step, hd, hc, hf]

/-- The rest of a text is expanded with this outcome: its frame comes to its end with the stack as
it was, or the run stops with the error. -/
def Ends (store : Store) (file : Option Location) (base : String) (todo : List Piece)
    (frames : List Frame) (stack : List Location) (out : List Char) :
    Except IncludeError (List Char) → Prop
  | .ok text => Steps store ⟨⟨file, base, todo⟩ :: frames, stack, out⟩
      ⟨⟨file, base, []⟩ :: frames, stack, out ++ text⟩
  | .error e =>
      ∃ d, Steps store ⟨⟨file, base, todo⟩ :: frames, stack, out⟩ d ∧ step store d = .stop (.error e)

lemma Ends.after {todo : List Piece} {more : List Char} {r : Except IncludeError (List Char)}
    (hsteps : Steps store ⟨⟨file, base, todo⟩ :: frames, stack, out⟩
      ⟨⟨file, base, rest⟩ :: frames, stack, out ++ more⟩)
    (h : Ends store file base rest frames stack (out ++ more) r) :
    Ends store file base todo frames stack out (r.map (more ++ ·)) := by
  cases r with
  | ok text =>
    have hrest : Steps store _ _ := h
    rw [List.append_assoc] at hrest
    exact hsteps.trans hrest
  | error e =>
    obtain ⟨d, hd, hstop⟩ := h
    exact ⟨d, hsteps.trans hd, hstop⟩

lemma outcome_prefixed {text : List Char} {x : Traced IncludeError (List Char)} :
    (do return text ++ (← x) : Traced IncludeError (List Char)).outcome =
      x.outcome.map (text ++ ·) := by
  rw [Traced.outcome_bind]
  cases x.outcome <;> rfl

/-- The steps do what `expandPieces` does. The files that are opened in a text are off the stack
again at its end. -/
theorem expandPieces_ends (store : Store) (base : String) (opened : List Location) (ps : List Piece)
    (file : Option Location) (frames : List Frame) (out : List Char) :
    Ends store file base ps frames opened out (expandPieces store base opened ps).outcome := by
  fun_induction expandPieces store base opened ps generalizing file frames out with
  | case1 base opened =>
    show Steps store _ ⟨_, _, out ++ []⟩
    rw [List.append_nil]
  | case2 base opened rest text ih =>
    rw [outcome_prefixed]
    exact (ih file frames _).after (.single rfl)
  | case3 base opened rest style body hd ih =>
    rw [outcome_prefixed]
    exact (ih file frames _).after (.single (step_comment hd))
  | case4 base opened rest style body path hd full shown hc =>
    exact ⟨_, .refl, step_cycle hd hc⟩
  | case5 base opened rest style body path hd full hc e hf =>
    exact ⟨_, .refl, step_unreadable hd hc hf⟩
  | case6 base opened rest style body path hd full hc l text hf hl ht hlt ih₁ ih₂ =>
    have hnew : l ∉ opened := not_mem_of_cyclePath? hl hc
    have hinto : step store ⟨⟨file, base, .comment style body :: rest⟩ :: frames, opened, out⟩ =
        .next ⟨⟨some l, (Path.parent? full).getD base, pieces text.toList⟩ ::
          ⟨file, base, rest⟩ :: frames, l :: opened, out⟩ := by
      rw [← List.insert_of_not_mem hnew]
      exact step_include hd hc hf
    rw [Traced.outcome_report_bind, Traced.outcome_bind]
    have hinner := ih₁ (some l) (⟨file, base, rest⟩ :: frames) out
    cases hr : (expandPieces store ((Path.parent? full).getD base) (l :: opened)
      (pieces text.toList)).outcome with
    | error e =>
      rw [hr] at hinner
      obtain ⟨d, hd, hstop⟩ := hinner
      exact ⟨d, .head hinto hd, hstop⟩
    | ok expanded =>
      rw [hr] at hinner
      have hback : step store ⟨⟨some l, (Path.parent? full).getD base, []⟩ ::
          ⟨file, base, rest⟩ :: frames, l :: opened, out ++ expanded⟩ =
          .next ⟨⟨file, base, rest⟩ :: frames, opened, out ++ expanded⟩ := by
        simp [step, close]
      show Ends store file base _ frames opened out (Traced.outcome _)
      rw [outcome_prefixed]
      exact (ih₂ file frames _).after (.head hinto (.tail hinner hback))

lemma stops (store : Store) (base : String) (text : List Char) :
    ∃ c, Steps store (start base text) c ∧ step store c = .stop (expand store base text).outcome := by
  have hends := expandPieces_ends store base [] (pieces text) none [] []
  rw [← expand] at hends
  cases hr : (expand store base text).outcome with
  | error e =>
    rw [hr] at hends
    exact hends
  | ok expanded =>
    rw [hr] at hends
    exact ⟨⟨[], [], expanded⟩, .tail hends rfl, rfl⟩

/-- A run stops in one way. -/
lemma stop_unique {c d d' : Config} {r r' : Except IncludeError (List Char)}
    (hd : Steps store c d) (hr : step store d = .stop r) (hd' : Steps store c d')
    (hr' : step store d' = .stop r') : r = r' := by
  have hunique : Relator.RightUnique fun c d => step store c = .next d := by
    intro a b b' hb hb'
    exact Progress.next.inj (hb.symm.trans hb')
  have hlast : ∀ {a b : Config} {x : Except IncludeError (List Char)}, step store a = .stop x →
      Steps store a b → a = b := by
    intro a b x hx hab
    rcases Relation.ReflTransGen.cases_head hab with rfl | ⟨m, hm, -⟩
    · rfl
    · rw [hx] at hm
      cases hm
  rcases Relation.ReflTransGen.total_of_right_unique hunique hd hd' with h | h
  · obtain rfl := hlast hr h
    exact Progress.stop.inj (hr.symm.trans hr')
  · obtain rfl := hlast hr' h
    exact Progress.stop.inj (hr.symm.trans hr')

end Runs

section Stack

variable {store : Store} {c d : Config}

/-- The stack holds the open files, each once. -/
structure Config.Sound (c : Config) : Prop where
  stack_eq : c.stack = openFiles c.frames
  nodup : c.stack.Nodup

lemma start_sound (base : String) (text : List Char) : (start base text).Sound :=
  ⟨rfl, List.nodup_nil⟩

lemma Config.Sound.close {file : Option Location} {base : String} {todo : List Piece}
    {frames : List Frame} {stack : List Location} {out : List Char}
    (h : Config.Sound ⟨⟨file, base, todo⟩ :: frames, stack, out⟩) :
    Config.Sound ⟨frames, Include.close stack file, out⟩ := by
  obtain ⟨hstack, hnodup⟩ := h
  cases file with
  | none => exact ⟨hstack, hnodup⟩
  | some l =>
    obtain rfl : stack = l :: openFiles frames := hstack
    refine ⟨?_, hnodup.erase l⟩
    simp [Include.close]

/-- Every step keeps the stack to the open files. -/
lemma step_sound (h : c.Sound) (hd : step store c = .next d) : d.Sound := by
  unfold step at hd
  split at hd
  · cases hd
  · cases hd
    exact h.close
  · cases hd
    exact ⟨h.stack_eq, h.nodup⟩
  next file base style body rest frames stack out =>
    split at hd
    · cases hd
      exact ⟨h.stack_eq, h.nodup⟩
    next path _ =>
      dsimp only at hd
      split at hd
      · cases hd
      next hc =>
        split at hd
        · cases hd
        next l text hf =>
          cases hd
          have hnew : l ∉ stack := not_mem_of_cyclePath? (Store.locate_of_file hf).1 hc
          have hstack : stack = openFiles (⟨file, base, rest⟩ :: frames) := h.stack_eq
          refine ⟨?_, h.nodup.insert⟩
          show stack.insert l = l :: openFiles (⟨file, base, rest⟩ :: frames)
          rw [List.insert_of_not_mem hnew, hstack]

lemma steps_sound (h : c.Sound) (hd : Steps store c d) : d.Sound := by
  induction hd with
  | refl => exact h
  | tail _ hstep ih => exact step_sound ih hstep

end Stack

section DepthFirst

variable {store : Store}

/-- The walk through a text and the texts that it includes, with no regard to cycles. It cannot go
on where a file is not read. -/
inductive Visit (store : Store) : List Frame → List Frame → Prop
  | leave (file : Option Location) (base : String) (frames : List Frame) :
      Visit store (⟨file, base, []⟩ :: frames) frames
  | plain (file : Option Location) (base : String) (text : List Char) (rest : List Piece)
      (frames : List Frame) :
      Visit store (⟨file, base, .plain text :: rest⟩ :: frames) (⟨file, base, rest⟩ :: frames)
  | comment (file : Option Location) (base : String) (style : CommentStyle) (body : List Char)
      (rest : List Piece) (frames : List Frame) (hd : directive? body = none) :
      Visit store (⟨file, base, .comment style body :: rest⟩ :: frames)
        (⟨file, base, rest⟩ :: frames)
  | enter (file : Option Location) (base : String) (style : CommentStyle) (body path : List Char)
      (rest : List Piece) (frames : List Frame) (hd : directive? body = some path) (l : Location)
      (text : String) (hf : store.file (Path.join base (String.ofList path)) = .ok (l, text)) :
      Visit store (⟨file, base, .comment style body :: rest⟩ :: frames)
        (⟨some l, (Path.parent? (Path.join base (String.ofList path))).getD base,
          pieces text.toList⟩ :: ⟨file, base, rest⟩ :: frames)

/-- The path of the directive that comes next. -/
def asked? : List Frame → Option String
  | ⟨_, base, .comment _ body :: _⟩ :: _ =>
      (directive? body).map fun path => Path.join base (String.ofList path)
  | _ => none

/-- The path leads to an open file, or it leads nowhere and spells the location of one. -/
def GoesBack (store : Store) (opened : List Location) (path : String) : Prop :=
  (∃ l ∈ opened, store.locate path = .ok l) ∨
    (∃ e, store.locate path = .error e) ∧ ∃ l ∈ opened, Location.spelled? path = some l

lemma goesBack_iff {opened : List Location} {path : String} :
    GoesBack store opened path ↔ ∃ shown, cyclePath? store opened path = some shown := by
  unfold GoesBack cyclePath?
  cases hl : store.locate path with
  | ok l => simp [eq_comm]
  | error e =>
    cases hs : Location.spelled? path with
    | none => simp
    | some l => simp

lemma visit_of_step {c d : Config} (h : step store c = .next d) :
    Visit store c.frames d.frames := by
  unfold step at h
  split at h
  · cases h
  · cases h
    exact .leave ..
  · cases h
    exact .plain ..
  · split at h
    next hd =>
      cases h
      exact .comment _ _ _ _ _ _ hd
    next path hd =>
      dsimp only at h
      split at h
      · cases h
      · split at h
        · cases h
        next l text hf =>
          cases h
          exact .enter _ _ _ _ _ _ _ hd _ _ hf

/-- A run goes the way of the walk, until it stops at a cycle. -/
lemma step_of_visit {c : Config} {fs : List Frame} (h : Visit store c.frames fs) :
    (∃ d, step store c = .next d ∧ d.frames = fs) ∨
      ∃ shown, step store c = .stop (.error (.cycle shown)) := by
  obtain ⟨frames, stack, out⟩ := c
  cases h with
  | leave => exact .inl ⟨_, rfl, rfl⟩
  | plain => exact .inl ⟨_, rfl, rfl⟩
  | comment _ _ _ _ _ _ hd => exact .inl ⟨_, step_comment hd, rfl⟩
  | enter _ base _ _ path _ _ hd l text hf =>
    cases hc : cyclePath? store stack (Path.join base (String.ofList path)) with
    | some shown => exact .inr ⟨shown, step_cycle hd hc⟩
    | none => exact .inl ⟨_, step_include hd hc hf, rfl⟩

lemma reached_of_walk {c : Config} {fs : List Frame}
    (h : Relation.ReflTransGen (Visit store) c.frames fs) :
    (∃ d, Steps store c d ∧ d.frames = fs) ∨
      ∃ d shown, Steps store c d ∧ step store d = .stop (.error (.cycle shown)) := by
  induction h with
  | refl => exact .inl ⟨c, .refl, rfl⟩
  | tail _ hvisit ih =>
    rcases ih with ⟨d, hd, rfl⟩ | hstopped
    · rcases step_of_visit hvisit with ⟨d', hnext, hframes⟩ | ⟨shown, hstop⟩
      · exact .inl ⟨d', hd.tail hnext, hframes⟩
      · exact .inr ⟨d, shown, hd, hstop⟩
    · exact .inr hstopped

lemma asked_of_cycle {c : Config} {shown : String}
    (h : step store c = .stop (.error (.cycle shown))) :
    ∃ full, asked? c.frames = some full ∧ cyclePath? store c.stack full = some shown := by
  unfold step at h
  split at h
  · cases h
  · cases h
  · cases h
  · split at h
    · cases h
    next path hd =>
      dsimp only at h
      split at h
      next hc =>
        cases h
        exact ⟨_, by simp [asked?, hd], hc⟩
      · split at h <;> cases h

lemma cycle_of_asked {c : Config} {full shown : String} (hasked : asked? c.frames = some full)
    (hc : cyclePath? store c.stack full = some shown) :
    step store c = .stop (.error (.cycle shown)) := by
  obtain ⟨frames, stack, out⟩ := c
  change asked? frames = some full at hasked
  unfold asked? at hasked
  split at hasked
  · obtain ⟨path, hd, rfl⟩ := Option.map_eq_some_iff.mp hasked
    exact step_cycle hd hc
  · cases hasked

/-- A cycle is found exactly if the walk comes to a directive that goes back to an open file. -/
theorem cycle_iff (base : String) (text : List Char) :
    (∃ shown, (expand store base text).outcome = .error (.cycle shown)) ↔
      ∃ fs full, Relation.ReflTransGen (Visit store) [⟨none, base, pieces text⟩] fs ∧
        asked? fs = some full ∧ GoesBack store (openFiles fs) full := by
  obtain ⟨last, hlast, hstop⟩ := stops store base text
  constructor
  · rintro ⟨shown, hcycle⟩
    rw [hcycle] at hstop
    obtain ⟨full, hasked, hc⟩ := asked_of_cycle hstop
    rw [(steps_sound (start_sound base text) hlast).stack_eq] at hc
    refine ⟨last.frames, full, ?_, hasked, goesBack_iff.mpr ⟨shown, hc⟩⟩
    exact hlast.lift Config.frames fun _ _ => visit_of_step
  · rintro ⟨fs, full, hwalk, hasked, hback⟩
    have hfound : ∃ d shown, Steps store (start base text) d ∧
        step store d = .stop (.error (.cycle shown)) := by
      rcases reached_of_walk (c := start base text) hwalk with ⟨d, hd, rfl⟩ | hstopped
      · rw [← (steps_sound (start_sound base text) hd).stack_eq] at hback
        obtain ⟨shown, hc⟩ := goesBack_iff.mp hback
        exact ⟨d, shown, hd, cycle_of_asked hasked hc⟩
      · exact hstopped
    obtain ⟨d, shown, hd, hcycle⟩ := hfound
    exact ⟨shown, stop_unique hlast hstop hd hcycle⟩

end DepthFirst

section Contents

variable {store : Store}

/-- The full expansion of a text: every directive stands for the full expansion of its file. -/
inductive Expands (store : Store) : String → List Piece → List Char → Prop
  | nil (base : String) : Expands store base [] []
  | plain {base : String} {rest : List Piece} {out : List Char} (text : List Char)
      (h : Expands store base rest out) : Expands store base (.plain text :: rest) (text ++ out)
  | comment {base : String} {rest : List Piece} {out : List Char} (style : CommentStyle)
      {body : List Char} (hd : directive? body = none) (h : Expands store base rest out) :
      Expands store base (.comment style body :: rest) ((Piece.comment style body).text ++ out)
  | enter {base : String} {rest : List Piece} {inner out : List Char} (style : CommentStyle)
      {body path : List Char} (hd : directive? body = some path) {l : Location} {text : String}
      (hf : store.file (Path.join base (String.ofList path)) = .ok (l, text))
      (hinner : Expands store ((Path.parent? (Path.join base (String.ofList path))).getD base)
        (pieces text.toList) inner)
      (h : Expands store base rest out) :
      Expands store base (.comment style body :: rest) (inner ++ out)

/-- What is written does not depend on the files that are open. -/
theorem expands_of_ok (base : String) (opened : List Location) (ps : List Piece) :
    ∀ out, (expandPieces store base opened ps).outcome = .ok out → Expands store base ps out := by
  fun_induction expandPieces store base opened ps with
  | case1 base opened =>
    intro out h
    cases h
    exact .nil base
  | case2 base opened rest text ih =>
    intro out h
    rw [outcome_prefixed, map_eq_ok] at h
    obtain ⟨more, hmore, rfl⟩ := h
    exact .plain text (ih more hmore)
  | case3 base opened rest style body hd ih =>
    intro out h
    rw [outcome_prefixed, map_eq_ok] at h
    obtain ⟨more, hmore, rfl⟩ := h
    exact .comment style hd (ih more hmore)
  | case4 base opened rest style body path hd full shown hc =>
    intro out h
    cases h
  | case5 base opened rest style body path hd full hc e hf =>
    intro out h
    cases h
  | case6 base opened rest style body path hd full hc l text hf hl ht hlt ih₁ ih₂ =>
    intro out h
    rw [Traced.outcome_report_bind] at h
    simp only [Traced.bind_ok, Traced.outcome_pure, Except.ok.injEq] at h
    obtain ⟨inner, hinner, more, hmore, rfl⟩ := h
    exact .enter style hd hf (ih₁ inner hinner) (ih₂ more hmore)

end Contents

/-- Expansion comes to an end, with the outcome of `expand`. All along, the stack holds the open
files, each once. A text that can be expanded leaves the stack as it was at any point in it, and
its full expansion is written, whatever was included before. A cycle is found exactly if the walk
through the texts, as far as files can be read, comes to a directive whose path leads to an open
file, or leads nowhere and spells the location of one. -/
theorem expansion_run (store : Store) (base : String) (text : List Char) :
    (∃ c, Steps store (start base text) c ∧
      step store c = .stop (expand store base text).outcome) ∧
    (∀ c, Steps store (start base text) c → c.stack = openFiles c.frames ∧ c.stack.Nodup ∧
      ∀ file base' todo frames inner, c.frames = ⟨file, base', todo⟩ :: frames →
        (expandPieces store base' c.stack todo).outcome = .ok inner →
        Steps store c ⟨⟨file, base', []⟩ :: frames, c.stack, c.out ++ inner⟩ ∧
          Expands store base' todo inner) ∧
    ((∃ shown, (expand store base text).outcome = .error (.cycle shown)) ↔
      ∃ fs full, Relation.ReflTransGen (Visit store) [⟨none, base, pieces text⟩] fs ∧
        asked? fs = some full ∧ GoesBack store (openFiles fs) full) := by
  refine ⟨stops store base text, fun c hc => ?_, cycle_iff base text⟩
  have hsound := steps_sound (start_sound base text) hc
  refine ⟨hsound.stack_eq, hsound.nodup, ?_⟩
  rintro file base' todo frames inner hframes hinner
  have hends := expandPieces_ends store base' c.stack todo file frames c.out
  rw [hinner] at hends
  obtain ⟨_, stack, out⟩ := c
  obtain rfl : _ = _ := hframes
  exact ⟨hends, expands_of_ok base' stack todo inner hinner⟩

/-- A file that asks for itself with a slash behind its name. -/
def slashStore : Store :=
  ⟨["w"], [["w"]], [(["w", "a.inc"], "\x7b$I a.inc/\x7d".toUTF8)]⟩

/-- A path that leads nowhere can be told as a cycle. -/
theorem cycle_of_slash :
    (expand slashStore "/w" "\x7b$I a.inc\x7d".toList).outcome = .error (.cycle "/w/a.inc/") ∧
      slashStore.locate "/w/a.inc/" = .error .notDirectory ∧
      slashStore.file "/w/a.inc/" = .error .notDirectory := by
  refine ⟨?_, by decide +kernel, by decide +kernel⟩
  have hmain : pieces "\x7b$I a.inc\x7d".toList =
      [.plain [], .comment .brace "$I a.inc".toList, .plain []] := by decide +kernel
  have hinner : pieces "\x7b$I a.inc/\x7d".toList =
      [.plain [], .comment .brace "$I a.inc/".toList, .plain []] := by decide +kernel
  have hfirst : directive? "$I a.inc".toList = some "a.inc".toList := by decide +kernel
  have hfree : cyclePath? slashStore [] (Path.join "/w" (String.ofList "a.inc".toList)) = none := by
    decide +kernel
  have hfile : slashStore.file (Path.join "/w" (String.ofList "a.inc".toList)) =
      .ok (["w", "a.inc"], "\x7b$I a.inc/\x7d") := by decide +kernel
  have hparent : (Path.parent? (Path.join "/w" (String.ofList "a.inc".toList))).getD "/w" = "/w" := by
    decide +kernel
  have hsecond : directive? "$I a.inc/".toList = some "a.inc/".toList := by decide +kernel
  have hback : cyclePath? slashStore [["w", "a.inc"]]
      (Path.join "/w" (String.ofList "a.inc/".toList)) = some "/w/a.inc/" := by decide +kernel
  rw [expand, hmain, expandPieces_plain, expandPieces_include hfirst hfree hfile, hparent, hinner,
    expandPieces_plain, expandPieces_cycle hsecond hback]
  rfl

end PascalJvm.Include
