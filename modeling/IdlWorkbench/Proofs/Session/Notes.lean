import IdlWorkbench.Session
import IdlWorkbench.Proofs.Graph.Analysis

/-!
# Notes of an editor

An editor tells a session which files it opens, changes and closes. What a note does to the graph comes first;
what became dirty is published after it.
-/

namespace IdlWorkbench

/-- What an editor tells of a file, which is given as it is written. -/
inductive Note where
  | opened (file text : String)
  | changed (file text : String)
  | closed (file : String)
deriving DecidableEq, Repr

namespace Note

def file : Note → Path
  | opened file _ | changed file _ | closed file => (Path.ofString file).normalize

/-- The text that the file then has in the editor, unless it is closed. -/
def text? : Note → Option String
  | opened _ text | changed _ text => some text
  | closed _ => none

def act (disk : Disk) (n : Note) : StateM Graph Published :=
  match n with
  | opened _ text => do
    let _ ← (Graph.addFile disk n.file text).run
    return []
  | changed _ text => do
    let _ ← (Graph.updateFile disk n.file text).run
    return []
  | closed _ => do
    match ← (Graph.closeFile disk n.file).run with
    | .ok (.evicted _) => return [(n.file, [])]
    | _ => return []

section
variable {disk : Disk} {g : Graph} {Q : Published → Graph → Prop} (file text : String)

theorem ends_opened : Ends ((opened file text).act disk) g Q ↔
    Ends (Graph.addFile disk (opened file text).file text).run g fun _ g' => Q [] g' := Iff.rfl

theorem ends_changed : Ends ((changed file text).act disk) g Q ↔
    Ends (Graph.updateFile disk (changed file text).file text).run g fun _ g' => Q [] g' := Iff.rfl

theorem ends_closed : Ends ((closed file).act disk) g Q ↔
    Ends (Graph.closeFile disk (closed file).file).run g fun r g' =>
      match r with
      | .ok (.evicted _) => Q [((closed file).file, [])] g'
      | _ => Q [] g' := by
  unfold act
  rw [ends_bind]
  refine ends_congr fun r g' => ?_
  rcases r with e | _ | _ <;> exact Iff.rfl

end

theorem normal_file (n : Note) : n.file.Normal := by
  cases n <;> exact Path.normal_normalize _

end Note

namespace Session

def hear (disk : Disk) (s : Session) : Note → Published × Session
  | .opened file text => s.didOpen disk (.ofString file) text
  | .changed file text => s.didChange disk (.ofString file) text
  | .closed file => s.didClose disk (.ofString file)

def after (disk : Disk) (s : Session) (notes : List Note) : Session :=
  notes.foldl (fun s n => (s.hear disk n).2) s

theorem hear_eq (disk : Disk) (s : Session) (n : Note) : s.hear disk n = s.note disk (n.act disk) := by
  cases n <;> rfl

theorem after_append (disk : Disk) (s : Session) (notes more : List Note) :
    s.after disk (notes ++ more) = (s.after disk notes).after disk more := List.foldl_append

/-- A session that has just opened the workspace around a directory. -/
def Opens (disk : Disk) (settings : Settings) (root : String) (s : Session) : Prop :=
  (start settings).openWorkspace disk (.ofString root) = .ok s

def opened (disk : Disk) (settings : Settings) (root : String) : Session :=
  (((start settings).openWorkspace disk (.ofString root)).toOption).getD (start settings)

variable {disk : Disk} {settings : Settings} {root : String} {s : Session}

theorem opens_opened (h : ((start settings).openWorkspace disk (.ofString root)).toOption.isSome) :
    Opens disk settings root (opened disk settings root) := by
  unfold Opens opened
  cases ho : (start settings).openWorkspace disk (.ofString root) with
  | error e => rw [ho] at h; cases h
  | ok s => rfl

theorem Opens.graph (h : Opens disk settings root s) : ∃ g₀ g,
    Graph.discover disk (Path.ofString root).normalize = .ok g₀ ∧
      Ends (Graph.loadTracked disk ((Path.ofString root).normalize.text ++ Listed.wildcard)).run g₀
        (fun r g' => (∃ paths, r = .ok paths) ∧ g' = g) ∧
      s = { settings, graph := some g } := by
  unfold Opens openWorkspace start at h
  simp only at h
  split at h
  · cases h
  · rename_i g₀ hg₀
    split at h
    · rename_i paths g hload
      cases h
      refine ⟨g₀, g, hg₀, ?_, rfl⟩
      rw [ends_iff]
      exact ⟨⟨paths, congrArg Prod.fst hload⟩, congrArg Prod.snd hload⟩
    · cases h

/-- A note acts on the graph, and then everything dirty is published. -/
theorem hear_run {g : Graph} (hg : s.graph = some g) (n : Note) {Q : Published → Graph → Prop}
    (h : Ends (n.act disk) g fun now g' => Ends (Graph.publishAll disk s.settings.lint) g' fun later g'' =>
      Q (now ++ later) g'') :
    ∃ g', (s.hear disk n).2 = { s with graph := some g' } ∧ Q (s.hear disk n).1 g' := by
  rw [hear_eq]
  unfold note
  rw [hg]
  exact ⟨_, rfl, h⟩

end Session

end IdlWorkbench
