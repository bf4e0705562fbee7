import Foculus.Data.Action
import Mathlib.Logic.Function.Basic

namespace Foculus.Data

/-! # Directories and files

A file system without links and without limits on the length of names.  A place
is the list of names that leads to it, innermost first; `[]` is the root.  A
call that fails leaves behind what it had done before it failed.
-/

abbrev Location := List String

inductive Node where
  | file (content : List UInt8)
  | dir
deriving DecidableEq

/-- What stands in the way of writing at a place: it is not permitted, or the
device is full once so many bytes are written. -/
inductive Obstacle where
  | denied
  | full (written : Nat)

inductive Fault where
  | notFound
  | fileExists
  | notADirectory
  | isADirectory
  | denied
  | noSpace
  | nulByte
deriving DecidableEq

def Fault.text : Fault → String
  | .notFound => "No such file or directory (os error 2)"
  | .fileExists => "File exists (os error 17)"
  | .notADirectory => "Not a directory (os error 20)"
  | .isADirectory => "Is a directory (os error 21)"
  | .denied => "Permission denied (os error 13)"
  | .noSpace => "No space left on device (os error 28)"
  | .nulByte => "file name contained an unexpected NUL byte"

structure FileTree where
  node : Location → Option Node
  obstacle : Location → Option Obstacle
  root_dir : node [] = some .dir
  parent_dir : ∀ {name parent}, (node (name :: parent)).isSome → node parent = some .dir

namespace FileTree

/-- Nothing but the root directory. -/
def bare (obstacle : Location → Option Obstacle) : FileTree where
  node place := if place = [] then some .dir else none
  obstacle := obstacle
  root_dir := rfl
  parent_dir := by simp

def has (tree : FileTree) (place : Location) : Bool := (tree.node place).isSome

def read (tree : FileTree) (place : Location) : Except Fault (List UInt8) :=
  match tree.node place with
  | some (.file content) => .ok content
  | some .dir => .error .isADirectory
  | none => .error .notFound

/-- The tree with another node in place of a missing one or of a file. -/
def update (tree : FileTree) (name : String) (parent : Location) (node : Option Node)
    (inside : tree.node parent = some .dir) (leaf : tree.node (name :: parent) ≠ some .dir) :
    FileTree where
  node := Function.update tree.node (name :: parent) node
  obstacle := tree.obstacle
  root_dir := by
    rw [Function.update_of_ne (by simp), tree.root_dir]
  parent_dir := by
    intro child place present
    by_cases here : child :: place = name :: parent
    · obtain ⟨-, rfl⟩ := List.cons.inj here
      rw [Function.update_of_ne (List.cons_ne_self name place).symm, inside]
    · rw [Function.update_of_ne here] at present
      have dir := tree.parent_dir present
      have elsewhere : place ≠ name :: parent := by
        rintro rfl
        exact leaf dir
      rw [Function.update_of_ne elsewhere, dir]

/-- `fs::write`: the file is created empty before anything is written to it. -/
def write (place : Location) (content : List UInt8) : Action FileTree Fault Unit := fun tree =>
  match place with
  | [] => (.err .isADirectory, tree)
  | name :: parent =>
      if inside : tree.node parent = some .dir then
        if leaf : tree.node (name :: parent) = some .dir then (.err .isADirectory, tree)
        else match tree.obstacle (name :: parent) with
          | none => (.ok (), tree.update name parent (some (.file content)) inside leaf)
          | some .denied => (.err .denied, tree)
          | some (.full written) =>
              if content.length ≤ written then
                (.ok (), tree.update name parent (some (.file content)) inside leaf)
              else
                (.err .noSpace,
                  tree.update name parent (some (.file (content.take written))) inside leaf)
      else (.err .notFound, tree)

/-- `fs::remove_file`. -/
def removeFile (place : Location) : Action FileTree Fault Unit := fun tree =>
  match place with
  | [] => (.err .isADirectory, tree)
  | name :: parent =>
      if leaf : tree.node (name :: parent) = some .dir then (.err .isADirectory, tree)
      else if present : (tree.node (name :: parent)).isSome then
        match tree.obstacle (name :: parent) with
        | some .denied => (.err .denied, tree)
        | _ => (.ok (), tree.update name parent none (tree.parent_dir present) leaf)
      else (.err .notFound, tree)

def makeDir (name : String) (parent : Location) : Action FileTree Fault Location := fun tree =>
  if inside : tree.node parent = some .dir then
    if present : (tree.node (name :: parent)).isSome then (.err .fileExists, tree)
    else match tree.obstacle (name :: parent) with
      | none => (.ok (name :: parent), tree.update name parent (some .dir) inside (by simp_all))
      | some .denied => (.err .denied, tree)
      | some (.full _) => (.err .noSpace, tree)
  else (.err .notADirectory, tree)

section Paths

/-- One component of a path, followed from a place that has to be a directory. -/
def step (tree : FileTree) (place : Location) (part : String) : Option Location :=
  if tree.node place ≠ some .dir then none
  else if part = "" ∨ part = "." then some place
  else if part = ".." then some place.tail
  else if tree.has (part :: place) then some (part :: place)
  else none

def parts (path : String) : List String := (path.toList.splitOn '/').map String.ofList

def hasNul (path : String) : Bool := path.toList.contains (Char.ofNat 0)

/-- Joining an absolute path to a directory drops the directory. -/
def start (place : Location) (path : String) : Location :=
  if path.toList.head? = some '/' then [] else place

/-- Where `path`, joined to the directory `place`, leads. -/
def resolve (tree : FileTree) (place : Location) (path : String) : Option Location :=
  if hasNul path then none else (parts path).foldlM tree.step (start place path)

/-- The place of the file that is created when `path` is opened for writing. -/
def target (tree : FileTree) (place : Location) (path : String) : Except Fault Location :=
  if hasNul path then .error .nulByte
  else
    let name := (parts path).getLastD ""
    match (parts path).dropLast.foldlM tree.step (start place path) with
    | none => .error .notFound
    | some parent =>
        if name = "" ∨ name = "." ∨ name = ".." then .error .isADirectory
        else .ok (name :: parent)

def writePath (place : Location) (path : String) (content : List UInt8) :
    Action FileTree Fault Unit := do
  let tree ← Action.get
  let place ← Action.lift (Outcome.ofExcept (tree.target place path))
  write place content

def enter (place : Location) (part : String) : Action FileTree Fault Location := fun tree =>
  match tree.step place part with
  | some next => (.ok next, tree)
  | none => makeDir part place tree

/-- `fs::create_dir_all` of `path` joined to the directory `place`, and where
the directory is. -/
def createDirAll (place : Location) (path : String) : Action FileTree Fault Location := fun tree =>
  if hasNul path then (.err .nulByte, tree)
  else match (parts path).foldlM enter (start place path) tree with
    | (.ok place, tree) =>
        if tree.node place = some .dir then (.ok place, tree) else (.err .fileExists, tree)
    | failed => failed

end Paths

@[simp] theorem update_node {tree : FileTree} {name : String} {parent : Location}
    {node : Option Node} {inside : tree.node parent = some .dir}
    {leaf : tree.node (name :: parent) ≠ some .dir} :
    (tree.update name parent node inside leaf).node =
      Function.update tree.node (name :: parent) node := rfl

/-- A successful write leaves the content at its place and every other place as it was. -/
theorem write_ok {tree after : FileTree} {place : Location} {content : List UInt8}
    (written : write place content tree = (.ok (), after)) :
    after.node = Function.update tree.node place (some (.file content)) := by
  cases place with
  | nil => simp [write] at written
  | cons name parent =>
      simp only [write] at written
      split_ifs at written with inside leaf
      · simp at written
      · split at written
        · simp only [Prod.mk.injEq, true_and] at written
          rw [← written, update_node]
        · simp at written
        · split_ifs at written
          · simp only [Prod.mk.injEq, true_and] at written
            rw [← written, update_node]
          · simp at written
      · simp at written

/-- A write that fails leaves the tree as it was, or the start of the content
when the device is full. -/
theorem write_cases (place : Location) (content : List UInt8) (tree : FileTree) :
    (∃ after, write place content tree = (.ok (), after) ∧ after.obstacle = tree.obstacle ∧
      after.node = Function.update tree.node place (some (.file content))) ∨
    (∃ fault, write place content tree = (.err fault, tree)) ∨
    ∃ fault written after, write place content tree = (.err fault, after) ∧
      tree.obstacle place = some (.full written) ∧ after.obstacle = tree.obstacle ∧
      after.node = Function.update tree.node place (some (.file (content.take written))) := by
  cases place with
  | nil => exact .inr (.inl ⟨_, rfl⟩)
  | cons name parent =>
      simp only [write]
      split_ifs with inside leaf
      · exact .inr (.inl ⟨_, rfl⟩)
      · split
        · exact .inl ⟨_, rfl, rfl, rfl⟩
        · exact .inr (.inl ⟨_, rfl⟩)
        · rename_i written full
          split_ifs with fits
          · exact .inl ⟨_, rfl, rfl, rfl⟩
          · exact .inr (.inr ⟨_, written, _, rfl, full, rfl, rfl⟩)
      · exact .inr (.inl ⟨_, rfl⟩)

/-- A write changes its own place at most. -/
theorem write_frame {tree after : FileTree} {place : Location} {content : List UInt8}
    {outcome : Outcome Fault Unit} (called : write place content tree = (outcome, after)) :
    ∃ node, after.node = Function.update tree.node place node := by
  rcases write_cases place content tree with
    ⟨_, written, -, node⟩ | ⟨fault, written⟩ | ⟨fault, _, _, written, -, -, node⟩
  · cases written.symm.trans called
    exact ⟨_, node⟩
  · cases written.symm.trans called
    exact ⟨_, (Function.update_eq_self place tree.node).symm⟩
  · cases written.symm.trans called
    exact ⟨_, node⟩

/-- Nothing but the file that is written is new. -/
theorem has_of_write {place other : Location} {content : List UInt8} {tree : FileTree}
    (present : (write place content tree).2.has other = true) :
    tree.has other = true ∨ other = place := by
  by_cases here : other = place
  · exact .inr here
  · left
    rcases write_cases place content tree with
      ⟨after, written, -, node⟩ | ⟨fault, written⟩ | ⟨fault, _, after, written, -, -, node⟩
    · rwa [written, has, node, Function.update_of_ne here] at present
    · rwa [written] at present
    · rwa [written, has, node, Function.update_of_ne here] at present

/-- The device is full before all of the content is written. -/
def Short (tree : FileTree) (place : Location) (content : List UInt8) : Prop :=
  ∃ written, tree.obstacle place = some (.full written) ∧ written < content.length

/-- Where a file may be created all of the content is written, or its start when the
device is full before. -/
theorem write_new {tree : FileTree} {name : String} {parent : Location}
    (inside : tree.node parent = some .dir) (absent : tree.has (name :: parent) = false)
    (permitted : tree.obstacle (name :: parent) ≠ some .denied) (content : List UInt8) :
    (¬ tree.Short (name :: parent) content ∧ ∃ after,
      write (name :: parent) content tree = (.ok (), after) ∧ after.obstacle = tree.obstacle ∧
        after.node = Function.update tree.node (name :: parent) (some (.file content))) ∨
    ∃ written after, tree.obstacle (name :: parent) = some (.full written) ∧
      written < content.length ∧
      write (name :: parent) content tree = (.err .noSpace, after) ∧
      after.obstacle = tree.obstacle ∧ after.node = Function.update tree.node (name :: parent)
        (some (.file (content.take written))) := by
  have leaf : tree.node (name :: parent) ≠ some .dir := by
    intro dir
    rw [has, dir] at absent
    cases absent
  simp only [write, dif_pos inside, dif_neg leaf]
  cases found : tree.obstacle (name :: parent) with
  | none => exact .inl ⟨by simp [Short, found], _, rfl, rfl, rfl⟩
  | some standing =>
      cases standing with
      | denied => contradiction
      | full written =>
          simp only
          split_ifs with fits
          · exact .inl ⟨by simpa [Short, found] using fits, _, rfl, rfl, rfl⟩
          · exact .inr ⟨written, _, rfl, Nat.lt_of_not_le fits, rfl, rfl, rfl⟩

/-- Where a file may be created something is there afterwards, whether or not
all of the content has found room. -/
theorem write_creates {tree : FileTree} {name : String} {parent : Location}
    (inside : tree.node parent = some .dir) (absent : tree.has (name :: parent) = false)
    (permitted : tree.obstacle (name :: parent) ≠ some .denied) (content : List UInt8) :
    (write (name :: parent) content tree).2.has (name :: parent) = true := by
  rcases write_new inside absent permitted content with
    ⟨-, after, written, -, node⟩ | ⟨_, after, -, -, written, -, node⟩
  · rw [written, has, node, Function.update_self]
    rfl
  · rw [written, has, node, Function.update_self]
    rfl

theorem write_refuses {tree : FileTree} {name : String} {parent : Location}
    (absent : tree.has (name :: parent) = false)
    (refused : ¬ (tree.node parent = some .dir ∧
      tree.obstacle (name :: parent) ≠ some .denied)) (content : List UInt8) :
    ∃ fault, write (name :: parent) content tree = (.err fault, tree) := by
  have leaf : tree.node (name :: parent) ≠ some .dir := by
    intro dir
    rw [has, dir] at absent
    cases absent
  simp only [write]
  split_ifs with inside
  · have denied : tree.obstacle (name :: parent) = some .denied := by
      by_contra permitted
      exact refused ⟨inside, permitted⟩
    rw [denied]
    exact ⟨_, rfl⟩
  · exact ⟨_, rfl⟩

theorem writePath_ok {tree after : FileTree} {place : Location} {path : String}
    {content : List UInt8} (written : writePath place path content tree = (.ok (), after)) :
    ∃ target, after.node = Function.update tree.node target (some (.file content)) := by
  rw [writePath, Action.get_bind] at written
  obtain ⟨target, -, written⟩ := Action.lift_bind_eq_ok_iff.mp written
  exact ⟨target, write_ok written⟩

theorem write_ne_panic (place : Location) (content : List UInt8) (tree : FileTree) :
    (write place content tree).1 ≠ .panic := by
  rcases write_cases place content tree with
    ⟨after, written, -⟩ | ⟨fault, written⟩ | ⟨fault, _, after, written, -⟩
  · simp [written]
  · simp [written]
  · simp [written]

theorem writePath_ne_panic (place : Location) (path : String) (content : List UInt8)
    (tree : FileTree) : (writePath place path content tree).1 ≠ .panic := by
  rw [writePath, Action.get_bind, Ne, Action.bind_panic_iff, not_or, not_exists]
  constructor
  · cases tree.target place path <;> simp [Outcome.ofExcept]
  · rintro target ⟨between, -, aborted⟩
    exact write_ne_panic target content between aborted

/-- A name that stands for itself in the directory it is joined to. -/
structure Plain (name : String) : Prop where
  unsplit : '/' ∉ name.toList
  noNul : Char.ofNat 0 ∉ name.toList
  names : name ≠ "" ∧ name ≠ "." ∧ name ≠ ".."

namespace Plain

variable {name : String}

theorem parts_eq (plain : Plain name) : parts name = [name] := by
  have whole : name.toList.splitOn '/' = [name.toList] := by
    refine List.splitOnP_eq_singleton fun char member => ?_
    exact beq_eq_false_iff_ne.mpr fun same => plain.unsplit (same ▸ member)
  rw [parts, whole, List.map_singleton, String.ofList_toList]

theorem start_eq (plain : Plain name) (place : Location) : start place name = place := by
  rw [start, if_neg]
  intro head
  exact plain.unsplit (List.mem_of_mem_head? head)

theorem hasNul_eq (plain : Plain name) : hasNul name = false := by
  simpa [hasNul] using plain.noNul

theorem target_eq (plain : Plain name) (tree : FileTree) (place : Location) :
    tree.target place name = .ok (name :: place) := by
  simp [target, plain.hasNul_eq, plain.parts_eq, plain.start_eq, plain.names]

theorem resolve_eq (plain : Plain name) {tree : FileTree} {place target : Location}
    (resolved : tree.resolve place name = some target) : target = name :: place := by
  rw [resolve, plain.hasNul_eq, if_neg (by simp), plain.parts_eq, plain.start_eq] at resolved
  obtain ⟨next, stepped, ended⟩ := Option.bind_eq_some_iff.mp resolved
  cases ended
  rw [step] at stepped
  split_ifs at stepped with _ same above _
  · exact absurd same (not_or.mpr ⟨plain.names.1, plain.names.2.1⟩)
  · exact absurd above plain.names.2.2
  · exact (Option.some.inj stepped).symm

/-- A plain name leads to the place under it, if something is there. -/
theorem resolve_eq_ite (plain : Plain name) (tree : FileTree) (place : Location) :
    tree.resolve place name = if tree.has (name :: place) then some (name :: place) else none := by
  cases resolved : tree.resolve place name with
  | some target =>
      cases plain.resolve_eq resolved
      rw [if_pos]
      rw [resolve, plain.hasNul_eq, if_neg (by simp), plain.parts_eq, plain.start_eq] at resolved
      obtain ⟨next, stepped, ended⟩ := Option.bind_eq_some_iff.mp resolved
      cases ended
      rw [step] at stepped
      split_ifs at stepped with _ same above present
      · exact absurd same (not_or.mpr ⟨plain.names.1, plain.names.2.1⟩)
      · exact absurd above plain.names.2.2
      · exact present
  | none =>
      rw [if_neg]
      intro present
      have inside := tree.parent_dir present
      rw [resolve, plain.hasNul_eq, if_neg (by simp), plain.parts_eq, plain.start_eq] at resolved
      have stepped : tree.step place name = some (name :: place) := by
        rw [step, if_neg (not_not.mpr inside),
          if_neg (not_or.mpr ⟨plain.names.1, plain.names.2.1⟩), if_neg plain.names.2.2,
          if_pos present]
      simp [stepped] at resolved

/-- Making a directory that is there changes nothing. -/
theorem createDirAll_eq (plain : Plain name) {tree : FileTree} {place : Location}
    (dir : tree.node (name :: place) = some .dir) :
    createDirAll place name tree = (.ok (name :: place), tree) := by
  have present : tree.has (name :: place) = true := by
    rw [has, dir, Option.isSome_some]
  have inside : tree.node place = some .dir := tree.parent_dir present
  have stepped : tree.step place name = some (name :: place) := by
    rw [step, if_neg (not_not.mpr inside),
      if_neg (not_or.mpr ⟨plain.names.1, plain.names.2.1⟩), if_neg plain.names.2.2, if_pos present]
  have entered : enter place name tree = (.ok (name :: place), tree) := by
    rw [enter, stepped]
  have walked : [name].foldlM enter place tree = (.ok (name :: place), tree) := by
    rw [List.foldlM_cons, Action.bind_ok entered]
    rfl
  rw [createDirAll, plain.hasNul_eq, if_neg Bool.false_ne_true, plain.parts_eq, plain.start_eq,
    walked]
  exact if_pos dir

theorem writePath_ok (plain : Plain name) {tree after : FileTree} {place : Location}
    {content : List UInt8} (written : writePath place name content tree = (.ok (), after)) :
    after.node = Function.update tree.node (name :: place) (some (.file content)) := by
  rw [writePath, Action.get_bind, plain.target_eq] at written
  obtain ⟨target, found, written⟩ := Action.lift_bind_eq_ok_iff.mp written
  cases found
  exact write_ok written

end Plain

/-- A removal that fails leaves the tree as it was; one that succeeds takes the file away. -/
theorem removeFile_cases (place : Location) (tree : FileTree) :
    (∃ fault, removeFile place tree = (.err fault, tree)) ∨
      ∃ after, removeFile place tree = (.ok (), after) ∧
        after.node = Function.update tree.node place none := by
  cases place with
  | nil => exact .inl ⟨_, rfl⟩
  | cons name parent =>
      simp only [removeFile]
      split_ifs with leaf present
      · exact .inl ⟨_, rfl⟩
      · split
        · exact .inl ⟨_, rfl⟩
        · exact .inr ⟨_, rfl, rfl⟩
      · exact .inl ⟨_, rfl⟩

theorem removeFile_ok {tree after : FileTree} {place : Location}
    (removed : removeFile place tree = (.ok (), after)) :
    after.node = Function.update tree.node place none := by
  rcases removeFile_cases place tree with ⟨fault, failed⟩ | ⟨_, succeeded, updated⟩
  · cases failed.symm.trans removed
  · cases succeeded.symm.trans removed
    exact updated

/-- The trees differ at the place at most. -/
structure Touches (place : Location) (tree after : FileTree) : Prop where
  obstacle : after.obstacle = tree.obstacle
  elsewhere : ∀ other, other ≠ place → after.node other = tree.node other

section Touches

variable {place : Location} {tree : FileTree}

theorem Touches.refl : Touches place tree tree := ⟨rfl, fun _ _ => rfl⟩

theorem Touches.of_update {after : FileTree} {node : Option Node}
    (obstacle : after.obstacle = tree.obstacle)
    (updated : after.node = Function.update tree.node place node) : Touches place tree after :=
  ⟨obstacle, fun other away => by rw [updated, Function.update_of_ne away]⟩

theorem write_touches (place : Location) (content : List UInt8) (tree : FileTree) :
    Touches place tree (write place content tree).2 := by
  rcases write_cases place content tree with
    ⟨after, written, obstacle, node⟩ | ⟨fault, written⟩ | ⟨_, _, after, written, -, obstacle, node⟩
  · rw [written]
    exact .of_update obstacle node
  · rw [written]
    exact .refl
  · rw [written]
    exact .of_update obstacle node

theorem removeFile_touches (place : Location) (tree : FileTree) :
    Touches place tree (removeFile place tree).2 := by
  cases place with
  | nil => exact .refl
  | cons name parent =>
      simp only [removeFile]
      split_ifs with leaf present
      · exact .refl
      · split
        · exact .refl
        · exact .of_update rfl rfl
      · exact .refl

theorem Plain.writePath_touches {name : String} (plain : Plain name) (place : Location)
    (content : List UInt8) (tree : FileTree) :
    Touches (name :: place) tree (writePath place name content tree).2 := by
  have found : writePath place name content tree = write (name :: place) content tree := by
    rw [writePath, Action.get_bind, plain.target_eq]
    rfl
  rw [found]
  exact write_touches _ _ _

end Touches

section CreateDirAll

/-- New directories in places where nothing is keep the property. -/
def KeptByNewDirs (holds : FileTree → Prop) : Prop :=
  ∀ {tree after : FileTree} {place : Location}, holds tree → tree.has place = false →
    after.obstacle = tree.obstacle → after.node = Function.update tree.node place (some .dir) →
    holds after

variable {holds : FileTree → Prop}

theorem enter_keeps (kept : KeptByNewDirs holds) (place : Location) (part : String) :
    (enter place part).Keeps holds := by
  intro tree held
  simp only [enter]
  cases tree.step place part with
  | some next => exact held
  | none =>
      simp only [makeDir]
      split_ifs with inside present
      · exact held
      · split
        · exact kept held (Bool.eq_false_iff.mpr present) rfl rfl
        · exact held
        · exact held
      · exact held

theorem foldlM_enter_keeps (kept : KeptByNewDirs holds) (parts : List String) (place : Location) :
    (parts.foldlM enter place).Keeps holds := by
  induction parts generalizing place with
  | nil => exact Action.keeps_pure place
  | cons part rest ih => exact Action.keeps_bind (enter_keeps kept place part) ih

/-- All that `create_dir_all` does is to make new directories. -/
theorem createDirAll_keeps (kept : KeptByNewDirs holds) (place : Location) (path : String) :
    (createDirAll place path).Keeps holds := by
  intro tree held
  have entered := foldlM_enter_keeps kept (parts path) (start place path) tree held
  simp only [createDirAll]
  split_ifs
  · exact held
  · rcases called : (parts path).foldlM enter (start place path) tree with ⟨outcome, after⟩
    rw [called] at entered
    cases outcome with
    | ok next =>
        dsimp only
        split_ifs
        · exact entered
        · exact entered
    | err fault => exact entered
    | panic => exact entered

/-- Every file of the tree is a file of the other with the same content, and
what stands in the way of writing is the same. -/
structure Within (other tree : FileTree) : Prop where
  obstacle : tree.obstacle = other.obstacle
  files : ∀ place content, tree.node place = some (.file content) →
    other.node place = some (.file content)

theorem Within.refl (tree : FileTree) : tree.Within tree := ⟨rfl, fun _ _ => id⟩

/-- `create_dir_all` creates no file and alters none. -/
theorem createDirAll_within {other : FileTree} (place : Location) (path : String) :
    (createDirAll place path).Keeps other.Within := by
  refine createDirAll_keeps (fun within _ obstacle node => ?_) place path
  refine ⟨obstacle.trans within.obstacle, fun other content found => ?_⟩
  rw [node, Function.update_apply] at found
  split_ifs at found
  · cases found
  · exact within.files other content found

end CreateDirAll

section Holding

/-- Every file of the tree has its content in the set. -/
def Holding (contents : Set (List UInt8)) (tree : FileTree) : Prop :=
  ∀ {place bytes}, tree.node place = some (.file bytes) → bytes ∈ contents

variable {contents : Set (List UInt8)} {tree after : FileTree}

theorem Holding.mono (holding : tree.Holding contents) {more : Set (List UInt8)}
    (subset : contents ⊆ more) : tree.Holding more :=
  fun found => subset (holding found)

theorem Holding.update (holding : tree.Holding contents) {place : Location} {node : Option Node}
    (updated : after.node = Function.update tree.node place node)
    (new : ∀ bytes, node = some (.file bytes) → bytes ∈ contents) : after.Holding contents := by
  intro other bytes found
  rw [updated, Function.update_apply] at found
  split_ifs at found
  · exact new bytes found
  · exact holding found

theorem Holding.read (holding : tree.Holding contents) {place : Location} {bytes : List UInt8}
    (read : tree.read place = .ok bytes) : bytes ∈ contents := by
  simp only [FileTree.read] at read
  split at read
  · rename_i found
    cases read
    exact holding found
  · cases read
  · cases read

end Holding

end FileTree

end Foculus.Data
