import PascalJvm.Files.Store
import PascalJvm.Include.Directive
import PascalJvm.Log

/-!
# Expanding includes

Each include directive is replaced by the text of its file, expanded in turn. The path of a
file is taken from the directory of the text that includes it. A file that is still open,
because its own text led here, is not opened again: that is a cycle. A path that leads nowhere
is a cycle as well if it spells the location of an open file, as a slash behind its name does.
As only files of the store that are not open can be opened, expansion comes to an end.
-/
namespace PascalJvm.Include

open Files

inductive IncludeError
  | cycle (path : String)
  | unreadable (path : String) (e : FileError)
deriving DecidableEq, Repr

def IncludeError.message : IncludeError → String
  | cycle path => "include cycle detected: " ++ path
  | unreadable path e => "include read failed (" ++ path ++ "): " ++ e.message

/-- The number of files in the store that are not open. -/
def unopened (store : Store) (opened : List Location) : Nat :=
  store.files.countP fun f => !opened.contains f.1

theorem mem_files_of_textAt {store : Store} {l : Location} {text : String}
    (h : store.textAt l = .ok text) : ∃ bytes, (l, bytes) ∈ store.files := by
  unfold Store.textAt at h
  split at h
  next => simp at h
  next bytes hl =>
    obtain ⟨before, after, hsplit, _⟩ := List.lookup_eq_some_iff.mp hl
    exact ⟨bytes, by simp [hsplit]⟩

/-- Opening a file leaves fewer files to open. -/
theorem unopened_cons_lt {store : Store} {opened : List Location} {l : Location} {text : String}
    (ht : store.textAt l = .ok text) (hl : l ∉ opened) :
    unopened store (l :: opened) < unopened store opened := by
  obtain ⟨bytes, hmem⟩ := mem_files_of_textAt ht
  obtain ⟨before, after, hsplit⟩ := List.append_of_mem hmem
  have hle (fs : List (Location × ByteArray)) :
      fs.countP (fun f => !(l :: opened).contains f.1) ≤ fs.countP fun f => !opened.contains f.1 :=
    List.countP_mono_left (by simp)
  have hbefore := hle before
  have hafter := hle after
  have hopen : opened.contains l = false := by simpa using hl
  have hself : (l :: opened).contains l = true := by simp
  simp only [unopened, hsplit, List.countP_append, List.countP_cons, hopen, hself]
  simp only [Bool.not_true, Bool.not_false, Bool.false_eq_true, if_true, if_false]
  omega

/-- The path by which a cycle is told, if a path comes back to an open file. -/
def cyclePath? (store : Store) (opened : List Location) (path : String) : Option String :=
  match store.locate path with
  | .ok l => if l ∈ opened then some l.text else none
  | .error _ =>
      match Location.spelled? path with
      | some l => if l ∈ opened then some path else none
      | none => none

theorem not_mem_of_cyclePath? {store : Store} {opened : List Location} {path : String}
    {l : Location} (hl : store.locate path = .ok l) (h : cyclePath? store opened path = none) :
    l ∉ opened := by
  intro hmem
  simp [cyclePath?, hl, hmem] at h

/-- Expand the pieces of a text that lies in the directory `base`, while the files `opened`
are open. -/
def expandPieces (store : Store) (base : String) (opened : List Location) :
    List Piece → Traced IncludeError (List Char)
  | [] => return []
  | piece :: rest =>
      match piece with
      | .plain text => do return text ++ (← expandPieces store base opened rest)
      | .comment style body =>
          match directive? body with
          | none => do
              return (Piece.comment style body).text ++ (← expandPieces store base opened rest)
          | some path =>
              let full := Path.join base (String.ofList path)
              match hc : cyclePath? store opened full with
              | some shown => Traced.fail (.cycle shown)
              | none =>
                  match hf : store.file full with
                  | .error e => Traced.fail (.unreadable full e)
                  | .ok (l, text) =>
                      have ⟨hl, ht⟩ := Store.locate_of_file hf
                      have := unopened_cons_lt ht (not_mem_of_cyclePath? hl hc)
                      do
                        Traced.report (.including full)
                        let inner ← expandPieces store ((Path.parent? full).getD base)
                          (l :: opened) (pieces text.toList)
                        return inner ++ (← expandPieces store base opened rest)
termination_by ps => (unopened store opened, ps.length)
decreasing_by
  · exact Prod.Lex.right _ (by simp)
  · exact Prod.Lex.right _ (by simp)
  · exact Prod.Lex.left _ _ this
  · exact Prod.Lex.right _ (by simp)

/-- Expand the includes of a text that lies in the directory `base`. -/
def expand (store : Store) (base : String) (text : List Char) :
    Traced IncludeError (List Char) :=
  expandPieces store base [] (pieces text)

end PascalJvm.Include
