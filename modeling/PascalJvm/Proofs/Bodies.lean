import Mathlib.Data.List.TakeWhile
import Mathlib.Tactic
import PascalJvm.Proofs.CaseBranches
import PascalJvm.Proofs.DeclarationSteps
import PascalJvm.Proofs.Reading

/-!
# Bodies and the blocks around them

The body of the program and of each routine stands in a block, inside the blocks of the routines
around it. A name that is called in a body means the routine of that name in the innermost of
these blocks that declares one (`Body.resolve`). Routines are known by their paths, which are
distinct, and no name has a dollar sign in it, so their methods have distinct names as well.
-/
namespace PascalJvm.Source

/-- The names of the routines that a block declares. -/
def Block.routineNames (b : Block) : List String := b.routines.map fun r => r.1.name

/-- The statement of a block, and the blocks that it stands in, each with its path. Its own block
is the first one. -/
structure Body where
  path : ScopePath
  blocks : List (ScopePath × Block)
  stmt : Stmt

/-- The path of the routine that a name means. The first of the blocks counts that declares a
routine of this name. -/
def resolveIn (blocks : List (ScopePath × Block)) (n : String) : Option ScopePath :=
  (blocks.find? fun b => n ∈ b.2.routineNames).map fun b => b.1 ++ [n]

def Body.resolve (b : Body) (n : String) : Option ScopePath := resolveIn b.blocks n

mutual

/-- The body of a block and the bodies of the routines inside it, in the order of their
declarations. -/
def Block.bodies (path : ScopePath) (around : List (ScopePath × Block)) : Block → List Body
  | ⟨consts, types, vars, routines, stmt⟩ =>
      ⟨path, (path, ⟨consts, types, vars, routines, stmt⟩) :: around, stmt⟩ ::
        bodiesOf path ((path, ⟨consts, types, vars, routines, stmt⟩) :: around) routines

def bodiesOf (path : ScopePath) (blocks : List (ScopePath × Block)) :
    List (Heading × Block) → List Body
  | [] => []
  | (h, b) :: rest => b.bodies (path ++ [h.name]) blocks ++ bodiesOf path blocks rest

end

def Program.mainBody (p : Program) : Body := ⟨[], [([], p.block)], p.block.body⟩

/-- The bodies of the routines of a program. -/
def Program.routineBodies (p : Program) : List Body := bodiesOf [] [([], p.block)] p.block.routines

lemma Block.bodies_eq (path : ScopePath) (around : List (ScopePath × Block)) (b : Block) :
    b.bodies path around =
      ⟨path, (path, b) :: around, b.body⟩ :: bodiesOf path ((path, b) :: around) b.routines := by
  cases b
  rfl

lemma resolveIn_cons (path : ScopePath) (b : Block) (blocks : List (ScopePath × Block))
    (n : String) : resolveIn ((path, b) :: blocks) n =
      if n ∈ b.routineNames then some (path ++ [n]) else resolveIn blocks n := by
  rw [resolveIn, List.find?_cons]
  split_ifs with hn
  · simp [hn]
  · simp [hn, resolveIn]

section Each

variable {P : Block → Prop}

mutual

/-- The block and all blocks inside it have the property. -/
def Block.Each (P : Block → Prop) : Block → Prop
  | ⟨consts, types, vars, routines, body⟩ =>
      P ⟨consts, types, vars, routines, body⟩ ∧ RoutinesEach P routines

def RoutinesEach (P : Block → Prop) : List (Heading × Block) → Prop
  | [] => True
  | (_, b) :: rest => b.Each P ∧ RoutinesEach P rest

end

lemma Block.each_iff {b : Block} : b.Each P ↔ P b ∧ RoutinesEach P b.routines := by
  cases b
  exact Iff.rfl

mutual

/-- The block and all blocks inside it, in the order of their declarations. -/
def Block.blocks : Block → List Block
  | ⟨consts, types, vars, routines, body⟩ =>
      ⟨consts, types, vars, routines, body⟩ :: blocksOf routines

def blocksOf : List (Heading × Block) → List Block
  | [] => []
  | (_, b) :: rest => b.blocks ++ blocksOf rest

end

mutual

theorem Block.each_iff_blocks {b : Block} : b.Each P ↔ ∀ c ∈ b.blocks, P c := by
  match b with
  | ⟨consts, types, vars, routines, body⟩ =>
    rw [Block.each_iff, Block.blocks, List.forall_mem_cons, routinesEach_iff_blocks]

theorem routinesEach_iff_blocks {rs : List (Heading × Block)} :
    RoutinesEach P rs ↔ ∀ c ∈ blocksOf rs, P c := by
  match rs with
  | [] => simp [RoutinesEach, blocksOf]
  | (_, b) :: rest =>
    rw [RoutinesEach, blocksOf, List.forall_mem_append, Block.each_iff_blocks,
      routinesEach_iff_blocks]

end

lemma Block.Each.imp {Q : Block → Prop} {b : Block} (h : b.Each P) (hPQ : ∀ b, P b → Q b) :
    b.Each Q := by
  rw [Block.each_iff_blocks] at h ⊢
  exact fun c hc => hPQ c (h c hc)

end Each

/-- The name can be told apart from what follows it in the name of a method. -/
def Plain (n : String) : Prop := '$' ∉ n.toList

/-- An identifier is made of the characters of words. -/
lemma identifier_word : Parser.identifier.Yields fun n => ∀ c ∈ n.toList, Lexeme.isWordChar c := by
  intro s n rest h
  have hscan := Parser.finds_lexeme.mp h
  unfold Lexeme.identifier? at hscan
  split at hscan
  next => cases hscan
  next c t _ =>
    split_ifs at hscan
    obtain ⟨rfl, -⟩ := Prod.mk.inj (Option.some.inj hscan)
    rw [String.toList_ofList]
    exact fun c hc => List.mem_takeWhile_imp hc

lemma identifier_plain : Parser.identifier.Yields Plain :=
  identifier_word.mono fun _ hword hmem => absurd (hword _ hmem) (by decide)

/-- All routines of the block have names of the kind `N`. -/
abbrev Block.Named (N : String → Prop) (b : Block) : Prop := ∀ n ∈ b.routineNames, N n

/-- All routines of the block have plain names. -/
abbrev Block.PlainNames (b : Block) : Prop := ∀ n ∈ b.routineNames, Plain n

def Section.Named (N : String → Prop) : Section → Prop
  | .routine heading block => N heading.name ∧ block.Each (Block.Named N)
  | _ => True

section Named

variable {N : String → Prop}

lemma ofSections_named {sections : List Section} {body : Stmt} (h : ∀ s ∈ sections, s.Named N) :
    (Block.ofSections sections body).Each (Block.Named N) := by
  induction sections with
  | nil => exact ⟨List.forall_mem_nil _, trivial⟩
  | cons s rest ih =>
    obtain ⟨hs, hrest⟩ := List.forall_mem_cons.mp h
    obtain ⟨hnames, hinside⟩ := Block.each_iff.mp (ih hrest)
    show (s.prepend (Block.ofSections rest body)).Each (Block.Named N)
    cases s with
    | consts | types | vars => exact Block.each_iff.mpr ⟨hnames, hinside⟩
    | routine heading block =>
      exact Block.each_iff.mpr ⟨List.forall_mem_cons.mpr ⟨hs.1, hnames⟩, hs.2, hinside⟩

/-- The routines of a program text are named by identifiers. -/
lemma Program.named_of_parse (hN : Parser.identifier.Yields N) {text : List Char} {p : Program}
    (h : Program.parse text = .ok p) : p.block.Each (Block.Named N) := by
  refine Program.block_of_parse (fun {sub} hsub => ?_) h
  have hsection := section_yields (S := Section.Named N) hN hsub
    (fun _ => trivial) (fun _ => trivial) (fun _ => trivial) fun _ _ hname hblock => ⟨hname, hblock⟩
  have hbody : (compoundOver statement).Yields (Formed.Holds fun _ => True) :=
    fun _ _ _ _ _ _ => trivial
  exact blockOver_yields hsection hbody fun _ _ hsections _ => ofSections_named hsections

end Named

/-- The routines of a program text have plain names. -/
lemma Program.plain_of_parse {text : List Char} {p : Program} (h : Program.parse text = .ok p) :
    p.block.Each Block.PlainNames :=
  Program.named_of_parse identifier_plain h

end PascalJvm.Source

namespace PascalJvm

open Source

/-- The step succeeds in some environment. -/
def Environment.Step.Taken (s : Step) : Prop := ∃ env env', s.run env = .ok env'

namespace Environment

lemma nodup_of_headingSteps {path : ScopePath} {seen : List String} {rs : List (Heading × Block)}
    (h : ∀ s ∈ headingSteps path seen rs, s.Taken) :
    (∀ r ∈ rs, r.1.name ∉ seen) ∧ (rs.map fun r => r.1.name).Nodup := by
  induction rs generalizing seen with
  | nil => simp
  | cons r rest ih =>
    obtain ⟨first, hrest⟩ := List.forall_mem_cons.mp h
    obtain ⟨hfresh, hnodup⟩ := ih hrest
    obtain ⟨env, env', hrun⟩ := first
    obtain ⟨hseen, -⟩ := ok_of_guard hrun
    refine ⟨List.forall_mem_cons.mpr ⟨by simpa using hseen, fun x hx hmem =>
      hfresh x hx (List.mem_cons_of_mem _ hmem)⟩, List.nodup_cons.mpr ⟨?_, hnodup⟩⟩
    intro hmem
    obtain ⟨x, hx, hname⟩ := List.mem_map.mp hmem
    exact hfresh x hx (by simp [hname])

mutual

/-- What each block itself declares is among the steps. -/
theorem ownSteps_subset_blockSteps (path : ScopePath) (b : Block) :
    ∀ c ∈ b.blocks, ∃ q, ownSteps q c ⊆ blockSteps path b := by
  match b with
  | ⟨consts, types, vars, routines, body⟩ =>
    rw [blockSteps, Block.blocks, List.forall_mem_cons]
    refine ⟨⟨path, List.subset_append_left _ _⟩, fun c hc => ?_⟩
    obtain ⟨q, hq⟩ := ownSteps_subset_nestedSteps path routines c hc
    exact ⟨q, List.subset_append_of_subset_right _ hq⟩

theorem ownSteps_subset_nestedSteps (path : ScopePath) (rs : List (Heading × Block)) :
    ∀ c ∈ blocksOf rs, ∃ q, ownSteps q c ⊆ nestedSteps path rs := by
  match rs with
  | [] => exact List.forall_mem_nil _
  | (heading, b) :: rest =>
    rw [nestedSteps, blocksOf, List.forall_mem_append]
    constructor
    · intro c hc
      obtain ⟨q, hq⟩ := ownSteps_subset_blockSteps _ b c hc
      exact ⟨q, List.subset_append_of_subset_left _ hq⟩
    · intro c hc
      obtain ⟨q, hq⟩ := ownSteps_subset_nestedSteps path rest c hc
      exact ⟨q, List.subset_append_of_subset_right _ hq⟩

end

mutual

/-- Each step is for something that a block itself declares. -/
theorem mem_ownSteps_of_blockSteps (path : ScopePath) (b : Block) {s : Step}
    (h : s ∈ blockSteps path b) : ∃ c ∈ b.blocks, ∃ q, s ∈ ownSteps q c := by
  match b with
  | ⟨consts, types, vars, routines, body⟩ =>
    rw [blockSteps, List.mem_append] at h
    rcases h with h | h
    · exact ⟨_, List.mem_cons_self, path, h⟩
    · obtain ⟨c, hc, hs⟩ := mem_ownSteps_of_nestedSteps path routines h
      exact ⟨c, List.mem_cons_of_mem _ hc, hs⟩

theorem mem_ownSteps_of_nestedSteps (path : ScopePath) (rs : List (Heading × Block)) {s : Step}
    (h : s ∈ nestedSteps path rs) : ∃ c ∈ blocksOf rs, ∃ q, s ∈ ownSteps q c := by
  match rs with
  | [] => cases h
  | (heading, b) :: rest =>
    rw [nestedSteps, List.mem_append] at h
    rcases h with h | h
    · obtain ⟨c, hc, hs⟩ := mem_ownSteps_of_blockSteps _ b h
      exact ⟨c, List.mem_append_left _ hc, hs⟩
    · obtain ⟨c, hc, hs⟩ := mem_ownSteps_of_nestedSteps path rest h
      exact ⟨c, List.mem_append_right _ hc, hs⟩

end

/-- No block declares two routines of one name. -/
lemma distinct_of_ofProgram {p : Program} {env : Environment} (h : ofProgram p = .ok env) :
    p.block.Each fun b => b.routineNames.Nodup := by
  rw [ofProgram, declareBlock_eq_steps] at h
  refine Block.each_iff_blocks.mpr fun b hb => ?_
  obtain ⟨path, hown⟩ := ownSteps_subset_blockSteps [] p.block b hb
  have hheadings : ∀ s ∈ headingSteps path [] b.routines, s.Taken := by
    intro s hs
    have hmem : s ∈ ownSteps path b :=
      List.mem_append_right _ (List.mem_append_right _ (List.mem_append_right _ hs))
    obtain ⟨cur, next, hrun, -⟩ := (steps_taken h).2 s (hown hmem)
    exact ⟨cur, next, hrun⟩
  exact (nodup_of_headingSteps hheadings).2

end Environment

namespace Source

section Paths

mutual

/-- The bodies of a block are below its path. -/
theorem prefix_of_mem_bodies (path : ScopePath) (around : List (ScopePath × Block)) (b : Block) :
    ∀ x ∈ b.bodies path around, path <+: x.path := by
  match b with
  | ⟨consts, types, vars, routines, stmt⟩ =>
    refine List.forall_mem_cons.mpr ⟨List.prefix_rfl, fun x hx => ?_⟩
    obtain ⟨r, -, hr⟩ := prefix_of_mem_bodiesOf path _ routines x hx
    exact (List.prefix_append _ _).trans hr

theorem prefix_of_mem_bodiesOf (path : ScopePath) (blocks : List (ScopePath × Block))
    (rs : List (Heading × Block)) :
    ∀ x ∈ bodiesOf path blocks rs, ∃ r ∈ rs, path ++ [r.1.name] <+: x.path := by
  match rs with
  | [] => simp [bodiesOf]
  | (heading, b) :: rest =>
    rw [bodiesOf, List.forall_mem_append]
    constructor
    · intro x hx
      exact ⟨(heading, b), List.mem_cons_self, prefix_of_mem_bodies _ _ b x hx⟩
    · intro x hx
      obtain ⟨r, hr, hpre⟩ := prefix_of_mem_bodiesOf path blocks rest x hx
      exact ⟨r, List.mem_cons_of_mem _ hr, hpre⟩

end

mutual

theorem nodup_bodies (path : ScopePath) (around : List (ScopePath × Block)) (b : Block)
    (h : b.Each fun b => b.routineNames.Nodup) : ((b.bodies path around).map Body.path).Nodup := by
  match b with
  | ⟨consts, types, vars, routines, stmt⟩ =>
    rw [Block.bodies, List.map_cons, List.nodup_cons]
    refine ⟨fun hmem => ?_, nodup_bodiesOf path _ routines h.1 h.2⟩
    -- the routines of the block have longer paths than the block itself
    obtain ⟨x, hx, hpath⟩ := List.mem_map.mp hmem
    obtain ⟨r, -, hr⟩ := prefix_of_mem_bodiesOf path _ routines x hx
    have hlen := hr.length_le
    simp [hpath] at hlen

theorem nodup_bodiesOf (path : ScopePath) (blocks : List (ScopePath × Block))
    (rs : List (Heading × Block)) (hnames : (rs.map fun r => r.1.name).Nodup)
    (h : RoutinesEach (fun b => b.routineNames.Nodup) rs) :
    ((bodiesOf path blocks rs).map Body.path).Nodup := by
  match rs with
  | [] => exact List.nodup_nil
  | (heading, b) :: rest =>
    rw [List.map_cons, List.nodup_cons] at hnames
    rw [bodiesOf, List.map_append, List.nodup_append]
    refine ⟨nodup_bodies _ _ b h.1, nodup_bodiesOf path blocks rest hnames.2 h.2, ?_⟩
    rintro q hq q' hq' rfl
    obtain ⟨x, hx, rfl⟩ := List.mem_map.mp hq
    obtain ⟨y, hy, hpath⟩ := List.mem_map.mp hq'
    obtain ⟨r, hr, hbelow⟩ := prefix_of_mem_bodiesOf path blocks rest y hy
    have hne : heading.name ≠ r.1.name := fun he => hnames.1 (List.mem_map.mpr ⟨r, hr, he.symm⟩)
    refine Environment.not_below hne (prefix_of_mem_bodies _ _ b x hx) ?_
    rwa [hpath] at hbelow

end

mutual

theorem plain_bodies (path : ScopePath) (hpath : ∀ n ∈ path, Plain n)
    (around : List (ScopePath × Block)) (b : Block) (h : b.Each Block.PlainNames) :
    ∀ x ∈ b.bodies path around, ∀ n ∈ x.path, Plain n := by
  match b with
  | ⟨consts, types, vars, routines, stmt⟩ =>
    refine List.forall_mem_cons.mpr ⟨hpath, ?_⟩
    exact plain_bodiesOf path hpath _ routines h.1 h.2

theorem plain_bodiesOf (path : ScopePath) (hpath : ∀ n ∈ path, Plain n)
    (blocks : List (ScopePath × Block)) (rs : List (Heading × Block))
    (hnames : ∀ n ∈ rs.map fun r => r.1.name, Plain n) (h : RoutinesEach Block.PlainNames rs) :
    ∀ x ∈ bodiesOf path blocks rs, ∀ n ∈ x.path, Plain n := by
  match rs with
  | [] => simp [bodiesOf]
  | (heading, b) :: rest =>
    obtain ⟨hname, hrest⟩ := List.forall_mem_cons.mp hnames
    have hown : ∀ n ∈ path ++ [heading.name], Plain n :=
      List.forall_mem_append.mpr ⟨hpath, by simpa using hname⟩
    rw [bodiesOf, List.forall_mem_append]
    exact ⟨plain_bodies _ hown _ b h.1, plain_bodiesOf path hpath blocks rest hrest h.2⟩

end

/-- The path can be read from the name of the method. -/
lemma method_injective {p q : ScopePath} (hp : ∀ n ∈ p, Plain n) (hq : ∀ n ∈ q, Plain n)
    (hp' : p ≠ []) (hq' : q ≠ []) (h : p.method = q.method) : p = q := by
  have hsplit : ∀ {r : ScopePath}, (∀ n ∈ r, Plain n) → r ≠ [] →
      r.method.toList.splitOn '$' = r.map String.toList := by
    intro r hr hr'
    rw [ScopePath.method, String.toList_intercalate]
    refine List.splitOn_intercalate '$' ?_ (by simpa using hr')
    intro l hl
    obtain ⟨n, hn, rfl⟩ := List.mem_map.mp hl
    exact hr n hn
  have hmap : p.map String.toList = q.map String.toList := by
    rw [← hsplit hp hp', ← hsplit hq hq', h]
  exact List.map_injective_iff.mpr (fun _ _ => String.toList_injective) hmap

/-- A routine of a program has a path of plain names, which starts with a routine of the outermost
block. -/
lemma Program.path_of_mem {text : List Char} {p : Program} (hparse : Program.parse text = .ok p)
    {b : Body} (hb : b ∈ p.routineBodies) :
    (∀ n ∈ b.path, Plain n) ∧ ∃ n ∈ p.block.routineNames, [n] <+: b.path := by
  have hplain := Block.each_iff.mp (Program.plain_of_parse hparse)
  obtain ⟨r, hr, hpre⟩ := prefix_of_mem_bodiesOf [] _ p.block.routines b hb
  exact ⟨plain_bodiesOf [] (by simp) _ p.block.routines hplain.1 hplain.2 b hb,
    r.1.name, List.mem_map_of_mem hr, hpre⟩

/-- The routines of a program have distinct methods. -/
theorem nodup_methods {text : List Char} {p : Program} (hparse : Program.parse text = .ok p)
    {env : Environment} (henv : Environment.ofProgram p = .ok env) :
    (p.routineBodies.map fun b => b.path.method).Nodup := by
  have hdistinct := Block.each_iff.mp (Environment.distinct_of_ofProgram henv)
  have hpaths : (p.routineBodies.map Body.path).Nodup :=
    nodup_bodiesOf [] _ p.block.routines hdistinct.1 hdistinct.2
  have hpath : ∀ b ∈ p.routineBodies, (∀ n ∈ b.path, Plain n) ∧ b.path ≠ [] := by
    intro b hb
    obtain ⟨hplain, n, -, hpre⟩ := Program.path_of_mem hparse hb
    exact ⟨hplain, hpre.ne_nil (List.cons_ne_nil _ _)⟩
  have hmap : p.routineBodies.map (fun b => b.path.method) =
      (p.routineBodies.map Body.path).map ScopePath.method := by simp
  rw [hmap]
  refine hpaths.map_on ?_
  rintro q hq q' hq' h
  obtain ⟨b, hb, rfl⟩ := List.mem_map.mp hq
  obtain ⟨b', hb', rfl⟩ := List.mem_map.mp hq'
  exact method_injective (hpath b hb).1 (hpath b' hb').1 (hpath b hb).2 (hpath b' hb').2 h

end Paths

section Resolution

/-- Every routine that one of the blocks declares is one of the bodies. -/
def Inside (blocks : List (ScopePath × Block)) (bodies : List Body) : Prop :=
  ∀ x ∈ blocks, ∀ n ∈ x.2.routineNames, ∃ b ∈ bodies, b.path = x.1 ++ [n]

lemma exists_body {path : ScopePath} {blocks : List (ScopePath × Block)}
    {rs : List (Heading × Block)} {n : String} (hn : n ∈ rs.map fun r => r.1.name) :
    ∃ b ∈ bodiesOf path blocks rs, b.path = path ++ [n] := by
  induction rs with
  | nil => cases hn
  | cons r rest ih =>
    obtain ⟨heading, b⟩ := r
    rcases List.mem_cons.mp hn with rfl | hn
    · rw [bodiesOf, Block.bodies_eq]
      exact ⟨_, List.mem_append_left _ List.mem_cons_self, rfl⟩
    · obtain ⟨x, hx, hpath⟩ := ih hn
      exact ⟨x, List.mem_append_right _ hx, hpath⟩

variable {bodies : List Body}

mutual

theorem inside_of_bodies (path : ScopePath) (around : List (ScopePath × Block)) (b : Block)
    (haround : Inside around bodies) (h : ∀ x ∈ b.bodies path around, x ∈ bodies) :
    ∀ x ∈ b.bodies path around, Inside x.blocks bodies := by
  match b with
  | ⟨consts, types, vars, routines, stmt⟩ =>
    have hblocks : Inside ((path, ⟨consts, types, vars, routines, stmt⟩) :: around) bodies := by
      refine List.forall_mem_cons.mpr ⟨fun n hn => ?_, haround⟩
      obtain ⟨x, hx, hpath⟩ := exists_body hn
      exact ⟨x, h x (List.mem_cons_of_mem _ hx), hpath⟩
    refine List.forall_mem_cons.mpr ⟨hblocks, ?_⟩
    exact inside_of_bodiesOf path _ routines hblocks fun x hx => h x (List.mem_cons_of_mem _ hx)

theorem inside_of_bodiesOf (path : ScopePath) (blocks : List (ScopePath × Block))
    (rs : List (Heading × Block)) (hblocks : Inside blocks bodies)
    (h : ∀ x ∈ bodiesOf path blocks rs, x ∈ bodies) :
    ∀ x ∈ bodiesOf path blocks rs, Inside x.blocks bodies := by
  match rs with
  | [] => simp [bodiesOf]
  | (heading, b) :: rest =>
    rw [bodiesOf, List.forall_mem_append] at h
    rw [bodiesOf, List.forall_mem_append]
    exact ⟨inside_of_bodies _ blocks b hblocks h.1, inside_of_bodiesOf path blocks rest hblocks h.2⟩

end

lemma Inside.resolveIn {blocks : List (ScopePath × Block)} (h : Inside blocks bodies) {n : String}
    {q : ScopePath} (hq : resolveIn blocks n = some q) : ∃ b ∈ bodies, b.path = q := by
  obtain ⟨x, hx, rfl⟩ := Option.map_eq_some_iff.mp hq
  have hmem := List.mem_of_find?_eq_some hx
  have hn := List.find?_some hx
  exact h x hmem n (by simpa using hn)

/-- What a name means in a body of the program is a routine of the program. -/
theorem Program.resolve_mem {p : Program} {b : Body} (hb : b ∈ p.mainBody :: p.routineBodies)
    {n : String} {q : ScopePath} (hq : b.resolve n = some q) : ∃ t ∈ p.routineBodies, t.path = q := by
  have hmain : Inside [([], p.block)] p.routineBodies := by
    refine List.forall_mem_singleton.mpr fun n hn => ?_
    exact exists_body hn
  rcases List.mem_cons.mp hb with rfl | hb
  · exact hmain.resolveIn hq
  · exact (inside_of_bodiesOf [] _ p.block.routines hmain (fun x hx => hx) b hb).resolveIn hq

end Resolution

end Source
end PascalJvm
