import Mathlib.Tactic
import PascalJvm.Proofs.Linking

/-!
# Members of classes

A class may have several fields of one name, or several methods of one name, but not with one
descriptor as well. Names of variables and of record fields are checked when they are declared,
and the methods of routines have distinct names. What is left are the members that a program does
not declare itself: the field for the scanner and the constructor, which no declaration can meet,
and the main method, which a procedure `main` meets if it takes an array of strings or a string by
reference.
-/
namespace PascalJvm

open Jvm Typed
open Source (Body Block Plain)

/-- The argument arrives as an array of strings: it is one, or it is a string in a cell. -/
def Passing.IsStrings (p : Passing) : Prop :=
  (p.byRef = true ∧ p.ty = .string) ∨ ∃ low len, p.ty = .array low len .string

/-- A procedure with one parameter, which arrives as an array of strings. -/
def Signature.LikeMain (sig : Signature) : Prop :=
  sig.result = none ∧ ∃ p, sig.params = [p] ∧ p.IsStrings

namespace Jvm.Listing

/-- What a method is known by in its class: its name and its descriptor. -/
def methodKey (program : String) : MethodRole → String × String
  | .constructor => ("<init>", "()V")
  | .main => ("main", "([Ljava/lang/String;)V")
  | .routine m => (m.name, methodDescriptor program m)

def methodAccess : MethodRole → String
  | .constructor => "public "
  | .main => "public static "
  | .routine _ => "private static "

lemma methodHeader_eq (program : String) (role : MethodRole) :
    methodHeader program role =
      methodAccess role ++ (methodKey program role).1 ++ (methodKey program role).2 := by
  cases role <;> rfl

def methodKeys (program : String) (c : ClassFile) : List (String × String) :=
  c.methods.map fun m => methodKey program m.role

/-- What a field is known by in its class. -/
def fieldKey (program : String) (f : FieldDecl) : String × String :=
  (f.name, descriptor program f.ty)

def ownFieldKeys : Owner → List (String × String)
  | .program => [("_sysin", "Ljava/util/Scanner;")]
  | .record _ => []

def fieldKeys (program : String) (c : ClassFile) : List (String × String) :=
  ownFieldKeys c.role ++ c.fields.map (fieldKey program)

lemma fieldLines_eq (program : String) (c : ClassFile) :
    ownFields c.role ++ c.fields.map (field program c.role) =
      (fieldKeys program c).map fun k =>
        ".field " ++ fieldAccess c.role ++ " " ++ k.1 ++ " " ++ k.2 := by
  rw [fieldKeys, List.map_append, List.map_map]
  congr 1
  cases c.role with
  | program => decide
  | record r => rfl

section Descriptors

variable {program : String}

lemma ownerClass_injective : Function.Injective (ownerClass program) := by
  intro a b h
  have hchars := congrArg String.toList h
  cases a with
  | program =>
    cases b with
    | program => rfl
    | record r => simp [ownerClass, recordClass] at hchars
  | record r =>
    cases b with
    | program => simp [ownerClass, recordClass] at hchars
    | record r' => simpa [ownerClass, recordClass, String.toList_inj] using hchars

/-- The class of a record has a dollar sign in its name. -/
lemma dollar_mem_record (program r : String) (fields : List (String × Ty)) :
    '$' ∈ (descriptor program (.record r fields)).toList := by
  simp [descriptor, recordClass]

/-- What a descriptor can start with. -/
lemma descriptor_head (program : String) (t : Ty) :
    ∃ c ∈ ['I', 'F', 'Z', 'C', 'L', '['], ∃ cs, (descriptor program t).toList = c :: cs := by
  cases t with
  | basic b => cases b <;> simp [descriptor]
  | _ => simp [descriptor]

lemma paramDescriptor_head (program : String) (d : ParamDesc) :
    ∃ c ∈ ['I', 'F', 'Z', 'C', 'L', '['], ∃ cs, (paramDescriptor program d).toList = c :: cs := by
  cases d with
  | value t => exact descriptor_head program t
  | cell t => simp [paramDescriptor]

lemma descriptor_ne_scanner (t : Ty) : descriptor program t ≠ "Ljava/util/Scanner;" := by
  intro h
  have hchars := congrArg String.toList h
  cases t with
  | basic b => cases b <;> simp [descriptor] at hchars
  | enum n => simp [descriptor] at hchars
  | array low len elem => simp [descriptor] at hchars
  | record r fields =>
    have hmem := dollar_mem_record program r fields
    rw [h] at hmem
    exact absurd hmem (by decide)

/-- The descriptor of strings is that of no other type. -/
lemma eq_string_of_descriptor {t : Ty} {rest tail : List Char} (htail : '$' ∉ tail)
    (h : (descriptor program t).toList ++ rest = "Ljava/lang/String;".toList ++ tail) :
    t = .string ∧ rest = tail := by
  cases t with
  | basic b => cases b <;> simp_all [descriptor]
  | enum n => simp_all [descriptor]
  | array low len elem => simp_all [descriptor]
  | record r fields =>
    have hmem : '$' ∈ "Ljava/lang/String;".toList ++ tail := by
      rw [← h]
      exact List.mem_append_left _ (dollar_mem_record program r fields)
    simp [htail] at hmem

lemma strings_of_paramDescriptor {p : Passing} {rest tail : List Char} (htail : '$' ∉ tail)
    (h : (paramDescriptor program (.ofPassing p)).toList ++ rest =
      "[Ljava/lang/String;".toList ++ tail) : p.IsStrings ∧ rest = tail := by
  unfold ParamDesc.ofPassing at h
  split_ifs at h with hcell
  · have hstring : (descriptor program p.ty).toList ++ rest = "Ljava/lang/String;".toList ++ tail := by
      simpa [paramDescriptor] using h
    obtain ⟨hty, hrest⟩ := eq_string_of_descriptor htail hstring
    exact ⟨.inl ⟨(Bool.and_eq_true_iff.mp hcell).1, hty⟩, hrest⟩
  · cases hty : p.ty with
    | array low len elem =>
      have hstring : (descriptor program elem).toList ++ rest = "Ljava/lang/String;".toList ++ tail := by
        simpa [paramDescriptor, hty, descriptor] using h
      obtain ⟨rfl, hrest⟩ := eq_string_of_descriptor htail hstring
      exact ⟨.inr ⟨low, len, hty⟩, hrest⟩
    | basic b => cases b <;> simp [paramDescriptor, hty, descriptor] at h
    | enum n => simp [paramDescriptor, hty, descriptor] at h
    | record r fields => simp [paramDescriptor, hty, descriptor] at h

lemma paramDescriptor_of_strings {p : Passing} (h : p.IsStrings) :
    paramDescriptor program (.ofPassing p) = "[Ljava/lang/String;" := by
  rcases h with ⟨hbyRef, hty⟩ | ⟨low, len, hty⟩
  · have hcell : p.inCell = true := by simp [Passing.inCell, hbyRef, hty, Ty.isAggregate]
    rw [ParamDesc.ofPassing, if_pos hcell, hty]
    rfl
  · have hcell : ¬p.inCell = true := by simp [Passing.inCell, hty, Ty.isAggregate]
    rw [ParamDesc.ofPassing, if_neg hcell, hty]
    rfl

/-- The routines with the descriptor of the main method. -/
theorem methodDescriptor_eq_main_iff {sig : Signature} :
    methodDescriptor program (.ofSignature sig) = "([Ljava/lang/String;)V" ↔ sig.LikeMain := by
  constructor
  · intro h
    have hchars : (sig.params.map ParamDesc.ofPassing).flatMap
        (fun d => (paramDescriptor program d).toList) ++
          ')' :: (resultDescriptor program sig.result).toList =
        "[Ljava/lang/String;".toList ++ [')', 'V'] := by
      have := congrArg String.toList h
      simpa [methodDescriptor, MethodRef.ofSignature, List.flatMap_map] using this
    cases hparams : sig.params with
    | nil => simp [hparams] at hchars
    | cons p ps =>
      rw [hparams, List.map_cons, List.flatMap_cons, List.append_assoc] at hchars
      obtain ⟨hstrings, hrest⟩ := strings_of_paramDescriptor (by decide) hchars
      -- after the first parameter there is only the result
      cases ps with
      | cons q qs =>
        obtain ⟨c, hc, cs, hhead⟩ := paramDescriptor_head program (.ofPassing q)
        rw [List.map_cons, List.flatMap_cons, hhead] at hrest
        simp_all
      | nil =>
        refine ⟨?_, p, hparams, hstrings⟩
        cases hresult : sig.result with
        | none => rfl
        | some t =>
          obtain ⟨c, hc, cs, hhead⟩ := descriptor_head program t
          simp_all [resultDescriptor]
  · rintro ⟨hresult, p, hparams, hstrings⟩
    simp only [methodDescriptor, MethodRef.ofSignature, hresult, hparams, List.map_cons,
      List.map_nil, paramDescriptor_of_strings hstrings]
    rfl

end Descriptors

end Jvm.Listing

namespace Environment

/-- No two variables of the program have one name, and no two fields of a record. -/
structure Distinct (env : Environment) : Prop where
  vars : (env.vars.map Prod.fst).Nodup
  fields : ∀ t ∈ env.types, ∀ name fields, t.2 = .record name fields → (fields.map Prod.fst).Nodup

variable {path : ScopePath} {env env' : Environment}

lemma Distinct.empty : Environment.empty.Distinct := ⟨List.nodup_nil, by simp [Environment.empty]⟩

/-- A name that is not in a table may be added to it. -/
lemma nodup_concat {α : Type} {xs : List (String × α)} {n : String} {a : α}
    (h : (xs.map Prod.fst).Nodup) (hn : ¬(xs.lookup n).isSome = true) :
    ((xs ++ [(n, a)]).map Prod.fst).Nodup := by
  rw [Option.not_isSome_iff_eq_none, lookup_eq_none_iff_notMem] at hn
  rw [List.map_append]
  exact List.Nodup.append h (List.nodup_singleton n) (by simpa using hn)

lemma fieldsOf_nodup {done fields : List (String × Ty)} {refs : List (String × Source.TypeRef)}
    (hdone : (done.map Prod.fst).Nodup) (h : fieldsOf path env done refs = .ok fields) :
    (fields.map Prod.fst).Nodup := by
  induction refs generalizing done with
  | nil =>
    cases h
    exact hdone
  | cons ref rest ih =>
    obtain ⟨name, ref⟩ := ref
    simp only [fieldsOf, bind_eq_ok] at h
    obtain ⟨t, -, h⟩ := h
    obtain ⟨hfresh, h⟩ := ok_of_guard h
    exact ih (nodup_concat hdone hfresh) h

lemma Distinct.typeOf (henv : env.Distinct) {ref : Source.TypeRef} {name : String}
    {fields : List (String × Ty)} (h : env.typeOf ref = .ok (.record name fields)) :
    (fields.map Prod.fst).Nodup := by
  cases ref with
  | basic b => cases h
  | named n =>
    simp only [Environment.typeOf, Constant.orError_eq_ok, List.lookup_eq_some_iff] at h
    obtain ⟨before, after, hsplit, -⟩ := h
    exact henv.fields (n, .record name fields) (by simp [hsplit]) name fields rfl

lemma Distinct.specify (henv : env.Distinct) {n name : String} {spec : Source.TypeSpec}
    {fields : List (String × Ty)} (h : specify path env n spec = .ok (env', .record name fields)) :
    (fields.map Prod.fst).Nodup := by
  cases spec with
  | basic b => cases h
  | «alias» m =>
    simp only [Environment.specify, bind_eq_ok, pure_eq_ok, Prod.mk.injEq] at h
    obtain ⟨t, ht, -, rfl⟩ := h
    exact henv.typeOf ht
  | enum values =>
    simp only [Environment.specify, bind_eq_ok, pure_eq_ok, Prod.mk.injEq] at h
    obtain ⟨-, -, -, hty⟩ := h
    cases hty
  | record refs =>
    simp only [Environment.specify, bind_eq_ok, pure_eq_ok, Prod.mk.injEq, Ty.record.injEq] at h
    obtain ⟨fs, hfs, -, -, rfl⟩ := h
    refine fieldsOf_nodup ?_ hfs
    exact List.nodup_nil
  | array ranges elem =>
    simp only [Environment.specify, bind_eq_ok, pure_eq_ok, Prod.mk.injEq] at h
    obtain ⟨dims, -, t, ht, -, hty⟩ := h
    cases dims with
    | nil =>
      obtain rfl : t = .record name fields := hty
      exact henv.typeOf ht
    | cons d dims => cases hty

lemma Step.distinct {s : Step} (henv : env.Distinct) (h : s.run env = .ok env') :
    env'.Distinct := by
  match s with
  | .declare path (.const n e) =>
    obtain ⟨-, c, -, rfl⟩ := declareConst_ok h
    exact ⟨henv.vars, henv.fields⟩
  | .declare path (.type n spec) =>
    obtain ⟨-, mid, ty, hspec, rfl⟩ := declareType_ok h
    have hty : ∀ name fields, ty = .record name fields → (fields.map Prod.fst).Nodup := by
      rintro name fields rfl
      exact henv.specify hspec
    obtain ⟨consts, rfl⟩ := specify_keeps hspec
    exact ⟨henv.vars, forall_mem_concat henv.fields hty⟩
  | .var path n ref =>
    obtain ⟨hfresh, h⟩ := ok_of_guard h
    simp only [bind_eq_ok, pure_eq_ok] at h
    obtain ⟨t, -, rfl⟩ := h
    exact ⟨nodup_concat henv.vars hfresh, henv.fields⟩
  | .heading path seen (first, b) =>
    obtain ⟨-, h⟩ := ok_of_guard h
    simp only [bind_eq_ok] at h
    obtain ⟨params, -, result, -, h⟩ := h
    cases h
    exact ⟨henv.vars, henv.fields⟩

theorem distinctNames_of_ofProgram {p : Source.Program} (h : ofProgram p = .ok env) :
    env.Distinct :=
  of_ofProgram .empty (fun _ _ _ henv hrun => Step.distinct henv hrun) h

/-- The fields of a record of the program have distinct names. -/
lemma Distinct.record (hdistinct : env.Distinct) (henv : env.Coherent) {r : RecordTy}
    (hr : r ∈ Check.records env.types) : (r.fields.map Prod.fst).Nodup := by
  have hdeclared := (Check.collect_spec henv.types .nil).1.each r hr
  obtain ⟨before, after, hsplit, -⟩ := List.lookup_eq_some_iff.mp hdeclared
  exact hdistinct.fields (r.name, .record r.name r.fields) (by simp [hsplit]) r.name r.fields rfl

end Environment

/-- The program declares a procedure with the name and the descriptor of its main method. -/
def Environment.RedeclaresMain (env : Environment) (p : Source.Program) : Prop :=
  "main" ∈ p.block.routineNames ∧ ∃ sig, env.routines.lookup ["main"] = some sig ∧ sig.LikeMain

/-- No routine can be named for the constructor. -/
lemma Source.method_ne_init {text : List Char} {p : Program} (hparse : Program.parse text = .ok p)
    {b : Body} (hb : b ∈ p.routineBodies) : b.path.method ≠ "<init>" := by
  intro hmethod
  obtain ⟨hplain, n, hn, hpre⟩ := Program.path_of_mem hparse hb
  have hpath : b.path = ["<init>"] := method_injective hplain (by simp [Plain])
    (hpre.ne_nil (List.cons_ne_nil _ _)) (List.cons_ne_nil _ _) hmethod
  rw [hpath] at hpre
  obtain rfl : n = "<init>" := by simpa using hpre
  have hword := (Block.each_iff.mp (Program.named_of_parse identifier_word hparse)).1 _ hn
  exact absurd (hword '<' (by decide)) (by decide)

namespace Emit

/-- The class of a record has its constructor for a method. -/
lemma length_methods {policy : CasePolicy} {q : Program} {own : ClassFile}
    {records : List ClassFile} (h : (Emit.program policy q).outcome = .ok (own :: records)) :
    ∀ c ∈ records, c.methods.length = 1 := by
  simp only [Emit.program, Traced.bind_ok, Traced.outcome_mapM, Traced.outcome_pure,
    Except.ok.injEq, List.cons.injEq] at h
  obtain ⟨_, -, _, hrecords, -, rfl⟩ := h
  refine forall_of_mapM_eq_ok (fun r c hc => ?_) hrecords
  simp only [recordClass, Traced.bind_ok, Traced.outcome_pure, Except.ok.injEq] at hc
  obtain ⟨m, -, rfl⟩ := hc
  rfl

lemma map_fst_methodKey {program : String} {env : Environment} (henv : env.Coherent)
    {bodies : List Source.Body} {routines : List Method}
    (h : List.Forall₂ (Generated env) bodies routines) :
    (routines.map fun m => Listing.methodKey program m.role).map Prod.fst =
      bodies.map fun b => b.path.method := by
  induction h with
  | nil => rfl
  | cons hm _ ih =>
    obtain ⟨sig, hsig, hrole⟩ := hm.role
    rw [List.map_cons, List.map_cons, List.map_cons, ih, hrole]
    exact congrArg (· :: _) (henv.signature hsig).1

end Emit

namespace Emit.Parts

open Listing

variable {program : String} {env : Environment} {p : Source.Program}
  {constructor main : Method} {routines : List Method} {records : List ClassFile}
  (h : Parts env p constructor main routines records) (henv : env.Coherent)

/-- Fields of distinct names have distinct keys. -/
lemma nodup_fieldKeys {fields : List (String × Ty)} (hnames : (fields.map Prod.fst).Nodup) :
    ((fieldDecls fields).map (fieldKey program)).Nodup := by
  refine List.Nodup.of_map Prod.fst ?_
  rw [fieldDecls, List.map_map, List.map_map]
  exact hnames

include h henv

lemma classNames_nodup : ((Compile.listings program
    (ownClass env constructor main routines :: records)).map Prod.fst).Nodup := by
  have hnames : (Compile.listings program (ownClass env constructor main routines :: records)).map
      Prod.fst = ((ownClass env constructor main routines :: records).map ClassFile.role).map
        (ownerClass program) := by
    simp [Compile.listings, ClassFile.listing]
  rw [hnames]
  exact (h.roles_nodup henv).map ownerClass_injective

lemma fieldKeys_nodup (hdistinct : env.Distinct) {c : ClassFile}
    (hc : c ∈ ownClass env constructor main routines :: records) : (fieldKeys program c).Nodup := by
  rcases List.mem_cons.mp hc with rfl | hc
  · refine List.nodup_cons.mpr ⟨?_, nodup_fieldKeys hdistinct.vars⟩
    intro hmem
    obtain ⟨f, -, hkey⟩ := List.mem_map.mp hmem
    exact descriptor_ne_scanner f.ty (Prod.mk.inj hkey).2
  · obtain ⟨r, hr, hrecord⟩ := exists_mem_zip h.records.flip hc
    rw [fieldKeys, hrecord.role, hrecord.fields]
    exact nodup_fieldKeys (hdistinct.record henv (List.of_mem_zip hr).2)

/-- The constructor of the program class, the main method and the routines have distinct keys, with
the one exception that a routine may have that of the main method. -/
lemma methodKeys_nodup_iff {text : List Char} (hparse : Source.Program.parse text = .ok p)
    (hnames : (p.routineBodies.map fun b => b.path.method).Nodup) :
    (methodKeys program (ownClass env constructor main routines)).Nodup ↔
      methodKey program .main ∉ routines.map fun m => methodKey program m.role := by
  have hkeys : (routines.map fun m => methodKey program m.role).Nodup := by
    refine List.Nodup.of_map Prod.fst ?_
    rw [map_fst_methodKey henv h.routines]
    exact hnames
  have hinit : methodKey program .constructor ∉ routines.map fun m => methodKey program m.role := by
    intro hmem
    have hname := List.mem_map_of_mem (f := Prod.fst) hmem
    rw [map_fst_methodKey henv h.routines] at hname
    obtain ⟨b, hb, hmethod⟩ := List.mem_map.mp hname
    exact Source.method_ne_init hparse hb hmethod
  have hlist : methodKeys program (ownClass env constructor main routines) =
      methodKey program .constructor :: ((routines.map fun m => methodKey program m.role) ++
        [methodKey program .main]) := by
    simp [methodKeys, ownClass, h.constructor.role, h.main_role]
  rw [hlist, List.nodup_cons, List.nodup_append]
  have hne : methodKey program .constructor ≠ methodKey program .main := by
    intro he
    exact absurd (Prod.mk.inj he).1 (by decide)
  simp [hkeys, hinit, hne]

lemma main_mem_iff {text : List Char} (hparse : Source.Program.parse text = .ok p) :
    (methodKey program .main ∈ routines.map fun m => methodKey program m.role) ↔
      env.RedeclaresMain p := by
  constructor
  · intro hmem
    obtain ⟨m, hm, hkey⟩ := List.mem_map.mp hmem
    obtain ⟨b, hb, hgenerated⟩ := exists_mem_zip h.routines.flip hm
    obtain ⟨sig, hsig, hrole⟩ := hgenerated.role
    rw [hrole] at hkey
    obtain ⟨hname, hdescriptor⟩ := Prod.mk.inj hkey
    have hmethod : b.path.method = ScopePath.method ["main"] :=
      (henv.signature hsig).1.symm.trans hname
    obtain ⟨hplain, n, hn, hpre⟩ := Source.Program.path_of_mem hparse (List.of_mem_zip hb).2
    have hpath : b.path = ["main"] := Source.method_injective hplain (by simp [Plain])
      (hpre.ne_nil (List.cons_ne_nil _ _)) (List.cons_ne_nil _ _) hmethod
    rw [hpath] at hpre hsig
    obtain rfl : n = "main" := by simpa using hpre
    exact ⟨hn, sig, hsig, methodDescriptor_eq_main_iff.mp hdescriptor⟩
  · rintro ⟨hmain, sig, hsig, hlike⟩
    have hbody : ∃ b ∈ p.routineBodies, b.path = [] ++ ["main"] := Source.exists_body hmain
    obtain ⟨b, hb, hpath⟩ := hbody
    obtain ⟨m, hm, hgenerated⟩ := exists_mem_zip h.routines hb
    obtain ⟨sig', hsig', hrole⟩ := hgenerated.role
    rw [hpath] at hsig'
    obtain rfl : sig = sig' := Option.some.inj (hsig.symm.trans hsig')
    refine List.mem_map.mpr ⟨m, (List.of_mem_zip hm).2, ?_⟩
    have hname : (MethodRef.ofSignature sig).name = "main" := (henv.signature hsig).1
    rw [hrole, methodKey, methodKey, hname, methodDescriptor_eq_main_iff.mpr hlike]

end Emit.Parts

open Listing in
/-- The names of the classes of a checked program are distinct, and in each class the fields are
told apart by their names and descriptors. So are the methods, unless the class is that of the
program and the program has a procedure `main` with the descriptor of the main method. -/
theorem members_distinct_iff {source : List Char} {p : Source.Program} {env : Environment}
    {q : Program} (hparse : Source.Program.parse source = .ok p)
    (henv : Environment.ofProgram p = .ok env) (hcheck : (Check.program env p).outcome = .ok q)
    {policy : Emit.CasePolicy} {classes : List ClassFile}
    (hclasses : (Emit.program policy q).outcome = .ok classes) (name : String) :
    ((Compile.listings name classes).map Prod.fst).Nodup ∧
      ∀ c ∈ classes, (fieldKeys name c).Nodup ∧
        ((methodKeys name c).Nodup ↔ ¬(c.role = .program ∧ env.RedeclaresMain p)) := by
  have hcoherent := Environment.coherent_of_ofProgram henv
  obtain ⟨constructor, main, routines, records, rfl, hparts⟩ :=
    Emit.program_parts hcoherent (Check.program_checked hcheck)
      (wellTyped_of_checked hparse henv hcheck) hclasses
  refine ⟨hparts.classNames_nodup hcoherent, fun c hc => ⟨hparts.fieldKeys_nodup hcoherent
    (Environment.distinctNames_of_ofProgram henv) hc, ?_⟩⟩
  rcases List.mem_cons.mp hc with rfl | hrecord
  · rw [hparts.methodKeys_nodup_iff hcoherent hparse (Source.nodup_methods hparse henv),
      hparts.main_mem_iff hcoherent hparse]
    simp [Emit.ownClass]
  · obtain ⟨m, hm⟩ := List.length_eq_one_iff.mp (Emit.length_methods hclasses c hrecord)
    obtain ⟨r, -, hofRecord⟩ := Emit.exists_mem_zip hparts.records.flip hrecord
    simp [methodKeys, hm, hofRecord.role]

/-- A procedure `main` that takes a string by reference, beside a record and a nested routine. -/
def mainSource : List Char :=
  ("program p; type pair = record a: integer; b: real end; var x: pair; _sysin: integer; " ++
    "procedure main(var s: string); procedure main(var s: string); begin end; begin main(s) end; " ++
    "begin _sysin := 1 end.").toList

lemma mainSource_keys : ∃ p env q classes, Source.Program.parse mainSource = .ok p ∧
    Environment.ofProgram p = .ok env ∧ (Check.program env p).outcome = .ok q ∧
    (Emit.program .reject q).outcome = .ok classes ∧
    classes.map (Listing.methodKeys "p") =
      [[("<init>", "()V"), ("main", "([Ljava/lang/String;)V"),
        ("main$main", "([Ljava/lang/String;)V"), ("main", "([Ljava/lang/String;)V")],
        [("<init>", "()V")]] := by
  have hkeys : ((Compile.checked mainSource).outcome.toOption.bind fun q =>
      (Emit.program .reject q).outcome.toOption.map (List.map (Listing.methodKeys "p"))) =
      some [[("<init>", "()V"), ("main", "([Ljava/lang/String;)V"),
        ("main$main", "([Ljava/lang/String;)V"), ("main", "([Ljava/lang/String;)V")],
        [("<init>", "()V")]] := by decide +kernel
  obtain ⟨q, hq, hkeys⟩ := Option.bind_eq_some_iff.mp hkeys
  obtain ⟨classes, hclasses, hkeys⟩ := Option.map_eq_some_iff.mp hkeys
  rw [toOption_eq_some] at hq hclasses
  obtain ⟨p, env, hparse, henv, hcheck⟩ := Compile.checked_ok.mp hq
  exact ⟨p, env, q, classes, hparse, henv, hcheck, hclasses, hkeys⟩

/-- The main method and a procedure can have one name and one descriptor. -/
theorem main_methods_clash : ∃ p env q classes, Source.Program.parse mainSource = .ok p ∧
    Environment.ofProgram p = .ok env ∧ (Check.program env p).outcome = .ok q ∧
    (Emit.program .reject q).outcome = .ok classes ∧
    ∃ c ∈ classes, ¬(Listing.methodKeys "p" c).Nodup := by
  obtain ⟨p, env, q, classes, hparse, henv, hcheck, hclasses, hkeys⟩ := mainSource_keys
  refine ⟨p, env, q, classes, hparse, henv, hcheck, hclasses, ?_⟩
  obtain ⟨own, rest, rfl, hown, -⟩ := List.map_eq_cons_iff.mp hkeys
  refine ⟨own, List.mem_cons_self, ?_⟩
  rw [hown]
  decide

theorem mainSource_members_distinct : ∃ p env q classes,
    Source.Program.parse mainSource = .ok p ∧ Environment.ofProgram p = .ok env ∧
    (Check.program env p).outcome = .ok q ∧ (Emit.program .reject q).outcome = .ok classes ∧
    ((Compile.listings "p" classes).map Prod.fst).Nodup ∧
      ∀ c ∈ classes, (Listing.fieldKeys "p" c).Nodup ∧
        ((Listing.methodKeys "p" c).Nodup ↔ ¬(c.role = .program ∧ env.RedeclaresMain p)) := by
  obtain ⟨p, env, q, classes, hparse, henv, hcheck, hclasses, -⟩ := mainSource_keys
  exact ⟨p, env, q, classes, hparse, henv, hcheck, hclasses,
    members_distinct_iff hparse henv hcheck hclasses "p"⟩

end PascalJvm
