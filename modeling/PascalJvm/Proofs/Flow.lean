import Mathlib.Tactic
import PascalJvm.Proofs.StackDepth
import PascalJvm.Proofs.Verifier

/-!
# Frames along a piece of code

`Flow` follows the frames through a piece of code from top to bottom, given the frames at its
labels. Pieces are joined by `Flow.append`, and the code of a construct is a piece whose labels
can be given frames without regard to the labels of any other construct (`Framed`). A method
body through which the frames flow has a frame at each position (`FrameMap`), and its depths
satisfy the assembler.
-/
namespace PascalJvm.Jvm

/-- A frame that promises more can go where one that promises less can. -/
lemma check_mono {ctx : Context} {ins : Instr} {F G G' : Frame} (hle : F ≤ G)
    (h : check ctx ins G = some G') : ∃ F', check ctx ins F = some F' ∧ F' ≤ G' := by
  obtain ⟨hstack, hlocals⟩ := hle
  unfold check at h ⊢
  split at h
  case h_1 k n =>
    split at h
    next w hw =>
      split at h
      next hc =>
        cases h
        rw [hlocals n w hw]
        exact ⟨_, if_pos hc, by rw [hstack], hlocals⟩
      next => cases h
    next => cases h
  case h_2 k n =>
    split at h
    next w rest hrest =>
      split at h
      next hc =>
        cases h
        rw [hstack, hrest]
        refine ⟨_, if_pos hc, rfl, ?_⟩
        intro m v hv
        by_cases hm : m = n
        · subst hm
          simpa using hv
        · dsimp only at hv ⊢
          rw [Function.update_of_ne hm] at hv ⊢
          exact hlocals m v hv
      next => cases h
    next => cases h
  case h_3 =>
    split at h
    next hr =>
      cases h
      exact ⟨F, if_pos hr, hstack, hlocals⟩
    next => cases h
  case h_4 k =>
    split at h
    next w rest hrest =>
      split at h
      next hc =>
        cases h
        rw [hstack, hrest]
        exact ⟨_, if_pos hc, rfl, hlocals⟩
      next => cases h
    next => cases h
  case h_5 =>
    obtain ⟨stack, hs, rfl⟩ := Option.map_eq_some_iff.mp h
    rw [hstack, hs]
    exact ⟨_, rfl, rfl, hlocals⟩

/-- A place between two instructions. After a jump only the depth is left over. -/
inductive Point
  | live (F : Frame)
  | dead (depth : Nat)

/-- Between frames as for frames; the depth that is left over is the same. -/
def Point.le : Point → Point → Prop
  | .live F, .live G => F ≤ G
  | .dead d, .dead e => d = e
  | _, _ => False

instance : Preorder Point where
  le := Point.le
  le_refl
    | .live F => le_refl F
    | .dead _ => rfl
  le_trans
    | .live F, .live G, .live H, h, h' =>
        show F ≤ H from le_trans (show F ≤ G from h) (show G ≤ H from h')
    | .dead _, .dead _, .dead _, h, h' => Eq.trans h h'

/-- The frames get past one instruction. The labels have the given frames, and an instruction
above jumps to those in `seen`. -/
inductive Step (ctx : Context) (frames : Label → Frame) (seen : List Label) :
    Point → Instr → Point → Prop
  | label {F : Frame} {l : Label} (h : F ≤ frames l) :
      Step ctx frames seen (.live F) (.label l) (.live (frames l))
  | land {d : Nat} {l : Label} (h : l ∈ seen ∨ (frames l).stack.length = d) :
      Step ctx frames seen (.dead d) (.label l) (.live (frames l))
  | next {F G : Frame} {ins : Instr} (hl : ∀ l, ins ≠ .label l) (hf : ins.endsFlow = false)
      (hcheck : check ctx ins F = some G) (htargets : ∀ l ∈ ins.targets, G ≤ frames l) :
      Step ctx frames seen (.live F) ins (.live G)
  | stop {F G : Frame} {ins : Instr} (hf : ins.endsFlow = true)
      (hcheck : check ctx ins F = some G) (htargets : ∀ l ∈ ins.targets, G ≤ frames l) :
      Step ctx frames seen (.live F) ins (.dead G.stack.length)

/-- The frames go through the code from `p` to `q`. -/
def Flow (ctx : Context) (frames : Label → Frame) :
    List Label → Point → List Instr → Point → Prop
  | _, p, [], q => p ≤ q
  | seen, p, ins :: rest, q =>
      ∃ p', Step ctx frames seen p ins p' ∧ Flow ctx frames (seen ++ ins.targets) p' rest q

section

variable {ctx : Context} {frames : Label → Frame} {seen seen' : List Label} {p p' q r : Point}
  {code code' : List Instr}

lemma Step.seen_mono {ins : Instr} (h : Step ctx frames seen p ins q) (hs : seen ⊆ seen') :
    Step ctx frames seen' p ins q := by
  cases h with
  | label h => exact .label h
  | land h => exact .land (h.imp_left fun hl => hs hl)
  | next hl hf hcheck htargets => exact .next hl hf hcheck htargets
  | stop hf hcheck htargets => exact .stop hf hcheck htargets

lemma Step.mono {ins : Instr} (hp : p ≤ p') (h : Step ctx frames seen p' ins q) :
    ∃ q', Step ctx frames seen p ins q' ∧ q' ≤ q := by
  cases p with
  | dead d =>
    cases p' with
    | dead e =>
      cases (hp : d = e)
      exact ⟨q, h, le_refl q⟩
    | live G => exact hp.elim
  | live F =>
    cases h with
    | @label G l h => exact ⟨_, .label (le_trans (show F ≤ G from hp) h), le_refl _⟩
    | land h => exact (show False from hp).elim
    | next hl hf hcheck htargets =>
      obtain ⟨F', hF, hle⟩ := check_mono hp hcheck
      exact ⟨_, .next hl hf hF fun l hm => le_trans hle (htargets l hm), hle⟩
    | stop hf hcheck htargets =>
      obtain ⟨F', hF, hle⟩ := check_mono hp hcheck
      exact ⟨_, .stop hf hF fun l hm => le_trans hle (htargets l hm), congrArg List.length hle.1⟩

lemma Flow.seen_mono (h : Flow ctx frames seen p code q) (hs : seen ⊆ seen') :
    Flow ctx frames seen' p code q := by
  induction code generalizing seen seen' p with
  | nil => exact h
  | cons ins rest ih =>
    obtain ⟨p', hstep, hrest⟩ := h
    refine ⟨p', hstep.seen_mono hs, ih hrest fun l hl => ?_⟩
    exact List.mem_append.mpr ((List.mem_append.mp hl).imp_left fun h => hs h)

lemma Flow.mono (hp : p ≤ p') (h : Flow ctx frames seen p' code q) :
    Flow ctx frames seen p code q := by
  induction code generalizing seen p p' with
  | nil => exact le_trans hp h
  | cons ins rest ih =>
    obtain ⟨q', hstep, hrest⟩ := h
    obtain ⟨q'', hstep', hle⟩ := hstep.mono hp
    exact ⟨q'', hstep', ih hle hrest⟩

/-- Two pieces of code, one after the other; the second one knows the jumps of the first. -/
theorem Flow.append_seen (h : Flow ctx frames seen p code q)
    (h' : Flow ctx frames (seen ++ jumpedLabels code) q code' r) :
    Flow ctx frames seen p (code ++ code') r := by
  induction code generalizing seen p with
  | nil => exact (h'.seen_mono (by simp)).mono h
  | cons ins rest ih =>
    obtain ⟨p', hstep, hrest⟩ := h
    exact ⟨p', hstep, ih hrest (h'.seen_mono (by simp))⟩

theorem Flow.append (h : Flow ctx frames seen p code q) (h' : Flow ctx frames [] q code' r) :
    Flow ctx frames seen p (code ++ code') r :=
  h.append_seen (h'.seen_mono (List.nil_subset _))

/-- What the frames of a piece of code are at each position, when they flow through it from
`p`. -/
structure Positions (ctx : Context) (frames : Label → Frame) (seen : List Label) (p : Point)
    (code : List Instr) (T : Nat → Frame) : Prop where
  enter {F : Frame} (hp : p = .live F) : F ≤ T 0
  land {d : Nat} {ins : Instr} (hp : p = .dead d) (hi : code[0]? = some ins) :
    ∃ l, ins = .label l ∧ (l ∈ seen ∨ (T 0).stack.length = d)
  label {i : Nat} {l : Label} (hi : code[i]? = some (.label l)) : T i = frames l
  step {i : Nat} {ins : Instr} (hi : code[i]? = some ins) :
    ∃ G, check ctx ins (T i) = some G ∧ (∀ l ∈ ins.targets, G ≤ frames l) ∧
      (ins.endsFlow = false → G ≤ T (i + 1)) ∧
      (ins.endsFlow = true → ∀ next, code[i + 1]? = some next → ∃ l, next = .label l ∧
        (l ∈ seen ++ jumpedLabels (code.take (i + 1)) ∨
          (T (i + 1)).stack.length = G.stack.length))

/-- A frame in front of the others. -/
def before (F : Frame) (T : Nat → Frame) : Nat → Frame
  | 0 => F
  | i + 1 => T i

/-- The positions of a piece of code follow those of its first instruction. -/
lemma Positions.cons {ins : Instr} {F : Frame} {T : Nat → Frame}
    (h : Positions ctx frames (seen ++ ins.targets) q code T)
    (henter : ∀ G, p = .live G → G ≤ F)
    (hland : ∀ d, p = .dead d → ∃ l, ins = .label l ∧ (l ∈ seen ∨ F.stack.length = d))
    (hlabel : ∀ l, ins = .label l → F = frames l)
    (hstep : ∃ G, check ctx ins F = some G ∧ (∀ l ∈ ins.targets, G ≤ frames l) ∧
      (ins.endsFlow = false → q = .live G) ∧ (ins.endsFlow = true → q = .dead G.stack.length)) :
    Positions ctx frames seen p (ins :: code) (before F T) := by
  constructor
  · intro G hp
    exact henter G hp
  · intro d ins' hp hi
    cases hi
    exact hland d hp
  · intro i l hi
    cases i with
    | zero => exact hlabel l (Option.some.inj hi)
    | succ i => exact h.label hi
  · intro i ins' hi
    cases i with
    | zero =>
      cases hi
      obtain ⟨G, hcheck, htargets, hnext, hstop⟩ := hstep
      refine ⟨G, hcheck, htargets, fun hf => h.enter (hnext hf), ?_⟩
      intro hf next hi
      obtain ⟨l, hl, hseen⟩ := h.land (hstop hf) hi
      refine ⟨l, hl, hseen.imp_left fun hmem => ?_⟩
      simpa [jumpedLabels] using hmem
    | succ i =>
      obtain ⟨G, hcheck, htargets, hnext, hstop⟩ := h.step hi
      refine ⟨G, hcheck, htargets, hnext, ?_⟩
      intro hf next hi'
      obtain ⟨l, hl, hseen⟩ := hstop hf next hi'
      refine ⟨l, hl, hseen.imp_left fun hmem => ?_⟩
      rw [List.append_assoc] at hmem
      simpa [jumpedLabels] using hmem

lemma Flow.positions (h : Flow ctx frames seen p code q) :
    ∃ T, Positions ctx frames seen p code T := by
  induction code generalizing seen p with
  | nil =>
    refine ⟨fun _ => match p with | .live F => F | .dead _ => ⟨[], fun _ => none⟩, ?_⟩
    constructor
    · rintro F rfl
      exact le_refl F
    all_goals simp
  | cons ins rest ih =>
    obtain ⟨p', hstep, hrest⟩ := h
    obtain ⟨T, hT⟩ := ih hrest
    cases hstep with
    | @label F l hle =>
      refine ⟨before (frames l) T, hT.cons ?_ ?_ ?_ ?_⟩
      · rintro G ⟨⟩
        exact hle
      · simp
      · rintro k ⟨⟩
        rfl
      · exact ⟨frames l, rfl, by simp [Instr.targets], fun _ => rfl, by simp [Instr.endsFlow]⟩
    | @land d l hseen =>
      refine ⟨before (frames l) T, hT.cons ?_ ?_ ?_ ?_⟩
      · simp
      · rintro e ⟨⟩
        exact ⟨l, rfl, hseen⟩
      · rintro k ⟨⟩
        rfl
      · exact ⟨frames l, rfl, by simp [Instr.targets], fun _ => rfl, by simp [Instr.endsFlow]⟩
    | @next F G _ hl hf hcheck htargets =>
      refine ⟨before F T, hT.cons ?_ ?_ ?_ ?_⟩
      · rintro H ⟨⟩
        exact le_refl F
      · simp
      · exact fun l he => absurd he (hl l)
      · exact ⟨G, hcheck, htargets, fun _ => rfl, fun h => absurd h (by simp [hf])⟩
    | @stop F G _ hf hcheck htargets =>
      refine ⟨before F T, hT.cons ?_ ?_ ?_ ?_⟩
      · rintro H ⟨⟩
        exact le_refl F
      · simp
      · rintro l rfl
        simp [Instr.endsFlow] at hf
      · exact ⟨G, hcheck, htargets, fun h => absurd h (by simp [hf]), fun _ => rfl⟩

/-- Where no frame is left at the end, no instruction lets control go on past the end. -/
lemma Flow.lt_length_of_dead {d i : Nat} {ins : Instr} (h : Flow ctx frames seen p code (.dead d))
    (hi : code[i]? = some ins) (hf : ins.endsFlow = false) : i + 1 < code.length := by
  induction code generalizing seen p i with
  | nil => simp at hi
  | cons first rest ih =>
    obtain ⟨p', hstep, hrest⟩ := h
    cases i with
    | succ i =>
      have hlt := ih hrest hi
      simpa using hlt
    | zero =>
      cases hi
      cases rest with
      | cons next rest => simp
      | nil =>
        cases hstep with
        | stop hends => simp [hf] at hends
        | label => exact (show False from hrest).elim
        | land => exact (show False from hrest).elim
        | next => exact (show False from hrest).elim

/-- Control stays inside of such a code. -/
lemma Flow.lt_length_of_reachable {d i : Nat} {F : Frame}
    (h : Flow ctx frames seen (.live F) code (.dead d)) (hr : Reachable code i) :
    i < code.length := by
  induction hr with
  | refl =>
    cases code with
    | nil => exact (show False from h).elim
    | cons ins rest => simp
  | tail _ he _ =>
    cases he with
    | next hi hf => exact h.lt_length_of_dead hi hf
    | jump _ _ hj => exact (List.getElem?_eq_some_iff.mp hj).1

end

/-- A frame for every position on which all instructions agree, as `Consistent` is for
depths. -/
structure FrameMap (ctx : Context) (code : List Instr) (T : Nat → Frame) : Prop where
  step {i : Nat} {ins : Instr} (hi : code[i]? = some ins) :
    ∃ G, check ctx ins (T i) = some G ∧ ∀ j, Edge code i j → G ≤ T j
  follow {i : Nat} {ins : Instr} (hi : code[i]? = some ins) (hf : ins.endsFlow = true)
    (hlt : i + 1 < code.length) : LabelFollows code (fun i => (T i).stack.length) i ins

theorem Flow.frameMap {ctx : Context} {frames : Label → Frame} {F : Frame} {code : List Instr}
    {q : Point} (h : Flow ctx frames [] (.live F) code q) :
    ∃ T, F ≤ T 0 ∧ FrameMap ctx code T := by
  obtain ⟨T, hT⟩ := h.positions
  refine ⟨T, hT.enter rfl, ?_, ?_⟩
  · intro i ins hi
    obtain ⟨G, hcheck, htargets, hnext, -⟩ := hT.step hi
    refine ⟨G, hcheck, ?_⟩
    intro j he
    cases he with
    | next hi' hf =>
      rw [hi, Option.some.injEq] at hi'
      subst hi'
      exact hnext hf
    | jump hi' hl hj =>
      rw [hi, Option.some.injEq] at hi'
      subst hi'
      rw [hT.label hj]
      exact htargets _ hl
  · intro i ins hi hf hlt
    obtain ⟨G, hcheck, -, -, hstop⟩ := hT.step hi
    obtain ⟨next, hn⟩ : ∃ next, code[i + 1]? = some next := ⟨code[i + 1], by simp⟩
    obtain ⟨l, rfl, hseen⟩ := hstop hf next hn
    refine ⟨l, hn, ?_⟩
    rw [List.nil_append, (check_balanced hcheck).length] at hseen
    exact hseen

/-- The depths of the frames are the depths that the assembler finds. -/
lemma FrameMap.consistent {ctx : Context} {code : List Instr} {T : Nat → Frame}
    (h : FrameMap ctx code T) (h0 : (T 0).stack = []) :
    Consistent code fun i => (T i).stack.length := by
  have hedge : ∀ {i j : Nat} {ins : Instr}, code[i]? = some ins → Edge code i j →
      (T j).stack.length = ins.after (T i).stack.length := by
    intro i j ins hi he
    obtain ⟨G, hcheck, hle⟩ := h.step hi
    rw [← (hle j he).1, (check_balanced hcheck).length]
    rfl
  constructor
  · simp [h0]
  · intro i ins hi
    obtain ⟨G, hcheck, -⟩ := h.step hi
    exact (check_balanced hcheck).pops
  · intro i ins hi hf
    exact hedge hi (.next hi hf)
  · intro i j ins l hi hl hj
    exact hedge hi (.jump hi hl hj)
  · exact h.follow

/-- Frames can be given to the labels from `lo` to `hi` so that `P` holds, whatever the frames
of the other labels are. -/
def Framed (lo hi : Nat) (P : (Label → Frame) → Prop) : Prop :=
  ∃ given : Label → Frame, ∀ frames : Label → Frame,
    (∀ l, lo ≤ l → l < hi → frames l = given l) → P frames

namespace Framed

variable {lo mid hi : Nat} {P Q : (Label → Frame) → Prop}

lemma of_forall (h : ∀ frames, P frames) : Framed lo hi P :=
  ⟨fun _ => ⟨[], fun _ => none⟩, fun frames _ => h frames⟩

lemma mono (h : Framed lo hi P) (hPQ : ∀ frames, P frames → Q frames) : Framed lo hi Q := by
  obtain ⟨given, hgiven⟩ := h
  exact ⟨given, fun frames hf => hPQ frames (hgiven frames hf)⟩

/-- The labels of two constructs are apart, so both get their frames. -/
lemma and (hP : Framed lo mid P) (hQ : Framed mid hi Q) (hlo : lo ≤ mid) (hhi : mid ≤ hi) :
    Framed lo hi fun frames => P frames ∧ Q frames := by
  obtain ⟨given, hgiven⟩ := hP
  obtain ⟨given', hgiven'⟩ := hQ
  refine ⟨fun l => if l < mid then given l else given' l, ?_⟩
  intro frames hf
  refine ⟨hgiven frames fun l hl hlt => ?_, hgiven' frames fun l hl hlt => ?_⟩
  · exact (hf l hl (lt_of_lt_of_le hlt hhi)).trans (if_pos hlt)
  · exact (hf l (le_trans hlo hl) hlt).trans (if_neg (not_lt.mpr hl))

lemma label (l : Label) (F : Frame) : Framed l (l + 1) fun frames => frames l = F :=
  ⟨fun _ => F, fun _ hf => hf l (le_refl l) (Nat.lt_succ_self l)⟩

/-- A construct gives frames to two labels of its own. -/
lemma own_two {l l' : Nat} (H H' : Frame) (hl : l' = l + 1) (hmid : mid = l' + 1)
    (h : Framed mid hi P) (hle : mid ≤ hi) :
    Framed l hi fun frames => frames l = H ∧ frames l' = H' ∧ P frames := by
  subst hl hmid
  have hown := ((label l H).and (label (l + 1) H') (by omega) (by omega)).and h (by omega) hle
  exact hown.mono fun frames hframes => ⟨hframes.1.1, hframes.1.2, hframes.2⟩

/-- A construct gives one frame to all labels of its own. -/
lemma own (F : Frame) (h : Framed mid hi P) (hlo : lo ≤ mid) (hhi : mid ≤ hi) :
    Framed lo hi fun frames => (∀ l, lo ≤ l → l < mid → frames l = F) ∧ P frames :=
  and ⟨fun _ => F, fun _ hf l hl hlt => hf l hl hlt⟩ h hlo hhi

lemma exists_frames (h : Framed lo hi P) : ∃ frames, P frames := by
  obtain ⟨given, hgiven⟩ := h
  exact ⟨given, hgiven given fun _ _ _ => rfl⟩

end Framed

/-- The frame after a piece of straight code. -/
def checkAll (ctx : Context) (code : List Instr) (F : Frame) : Option Frame :=
  code.foldlM (fun G ins => check ctx ins G) F

lemma flow_of_checkAll {ctx : Context} {frames : Label → Frame} {seen : List Label}
    {code : List Instr} (hs : Straight code) {F G : Frame} (h : checkAll ctx code F = some G) :
    Flow ctx frames seen (.live F) code (.live G) := by
  induction code generalizing seen F with
  | nil =>
    cases h
    exact le_refl (Point.live G)
  | cons ins rest ih =>
    obtain ⟨H, hH, h⟩ := Option.bind_eq_some_iff.mp h
    have hins := hs ins List.mem_cons_self
    refine ⟨.live H, .next (Instr.ne_label_of_straight hins) (Instr.endsFlow_of_straight hins) hH ?_,
      ih (fun x hx => hs x (List.mem_cons_of_mem _ hx)) h⟩
    simp [Instr.targets_of_straight hins]

end PascalJvm.Jvm
