import Foculus.Data.FileTree

namespace Foculus.Data.FileTree

/-! # Paths that stay in a directory

Which paths, joined to a directory, lead to the same node in any two trees that
agree on the entries of that directory: those that never leave the directory,
its ancestors and its entries on their way.
-/

section Walk

/-- Where a component leads when everything on the way is a directory. -/
def lexicalStep (place : Location) (part : String) : Location :=
  if part = "" ∨ part = "." then place
  else if part = ".." then place.tail
  else part :: place

def visited (place : Location) : List String → List Location
  | [] => [place]
  | part :: rest => place :: visited (lexicalStep place part) rest

theorem mem_visited (place : Location) (parts : List String) : place ∈ visited place parts := by
  cases parts <;> simp [visited]

theorem step_eq_some {tree : FileTree} {place next : Location} {part : String}
    (stepped : tree.step place part = some next) : next = lexicalStep place part := by
  simp only [step, lexicalStep] at stepped ⊢
  split_ifs at stepped ⊢ <;> simp_all

/-- A component leads on from a directory when its destination is a directory. -/
theorem step_of_dirs {tree : FileTree} {place : Location} {part : String}
    (here : tree.node place = some .dir) (there : tree.node (lexicalStep place part) = some .dir) :
    tree.step place part = some (lexicalStep place part) := by
  simp only [step, lexicalStep, here] at there ⊢
  split_ifs at there ⊢ <;> simp_all [has]

theorem foldlM_step_of_dirs {tree : FileTree} {place : Location} {parts : List String}
    (dirs : ∀ other ∈ visited place parts, tree.node other = some .dir) :
    ∃ last ∈ visited place parts, parts.foldlM tree.step place = some last := by
  induction parts generalizing place with
  | nil => exact ⟨place, by simp [visited], rfl⟩
  | cons part rest ih =>
      have later : ∀ other ∈ visited (lexicalStep place part) rest, tree.node other = some .dir :=
        fun other member => dirs other (List.mem_cons_of_mem _ member)
      have there := later _ (mem_visited (lexicalStep place part) rest)
      obtain ⟨last, member, walked⟩ := ih later
      refine ⟨last, List.mem_cons_of_mem _ member, ?_⟩
      rw [List.foldlM_cons, step_of_dirs (dirs place (mem_visited place _)) there]
      exact walked

end Walk

section Near

variable {dir place : Location}

/-- The directory, its ancestors and its entries. -/
def Near (dir place : Location) : Prop := place <:+ dir ∨ (place ≠ [] ∧ place.tail = dir)

instance : Decidable (Near dir place) := inferInstanceAs (Decidable (_ ∨ _ ∧ _))

theorem Near.tail (near : Near dir place) : Near dir place.tail := by
  rcases near with above | ⟨-, rfl⟩
  · exact .inl ((List.tail_suffix place).trans above)
  · exact .inl (List.suffix_refl _)

theorem near_of_suffix {inner : Location} (below : inner <:+ place) (near : Near dir place) :
    Near dir inner := by
  rcases near with above | ⟨nonempty, rfl⟩
  · exact .inl (below.trans above)
  · obtain ⟨name, rest, rfl⟩ := List.exists_cons_of_ne_nil nonempty
    rcases List.suffix_cons_iff.mp below with rfl | inside
    · exact .inr ⟨by simp, rfl⟩
    · exact .inl inside

/-- Every place on the way is near the directory. -/
def Stays (dir place : Location) (parts : List String) : Prop :=
  ∀ other ∈ visited place parts, Near dir other

def Confined (dir : Location) (path : String) : Prop :=
  hasNul path = true ∨ Stays dir (start dir path) (parts path)

/-- The directory exists in both trees and has the same entries. -/
structure Agree (dir : Location) (left right : FileTree) : Prop where
  left_dir : left.node dir = some .dir
  right_dir : right.node dir = some .dir
  entries : ∀ name, left.node (name :: dir) = right.node (name :: dir)

theorem ancestor_dir {tree : FileTree} (above : place <:+ dir) (here : tree.node dir = some .dir) :
    tree.node place = some .dir := by
  induction dir with
  | nil =>
      cases List.suffix_nil.mp above
      exact here
  | cons name parent ih =>
      rcases List.suffix_cons_iff.mp above with rfl | higher
      · exact here
      · exact ih higher (tree.parent_dir (by rw [here]; rfl))

theorem Agree.node_eq {left right : FileTree} (agree : Agree dir left right)
    (near : Near dir place) : left.node place = right.node place := by
  rcases near with above | ⟨nonempty, rfl⟩
  · rw [ancestor_dir above agree.left_dir, ancestor_dir above agree.right_dir]
  · obtain ⟨name, rest, rfl⟩ := List.exists_cons_of_ne_nil nonempty
    exact agree.entries name

end Near

section Reading

variable {dir : Location} {path : String}

theorem step_congr {left right : FileTree} (agree : Agree dir left right) {place : Location}
    {part : String} (here : Near dir place) (there : Near dir (lexicalStep place part)) :
    left.step place part = right.step place part := by
  simp only [step, lexicalStep, has] at there ⊢
  rw [agree.node_eq here]
  split_ifs at there ⊢ <;> simp_all [agree.node_eq there]

theorem foldlM_step_congr {left right : FileTree} (agree : Agree dir left right) {place : Location}
    {parts : List String} (stays : Stays dir place parts) :
    parts.foldlM left.step place = parts.foldlM right.step place ∧
      ∀ last, parts.foldlM left.step place = some last → Near dir last := by
  induction parts generalizing place with
  | nil =>
      refine ⟨rfl, ?_⟩
      rintro last ⟨⟩
      exact stays place (mem_visited place [])
  | cons part rest ih =>
      have later : Stays dir (lexicalStep place part) rest := fun other member =>
        stays other (List.mem_cons_of_mem _ member)
      have here := stays place (mem_visited place _)
      have same := step_congr agree here (later _ (mem_visited _ rest))
      rw [List.foldlM_cons, List.foldlM_cons, ← same]
      cases stepped : left.step place part with
      | none => exact ⟨rfl, by simp⟩
      | some next =>
          cases step_eq_some stepped
          exact ih later

/-- A confined path leads to the same place in trees that agree on the
directory, and the same node is found there. -/
theorem resolve_congr {left right : FileTree} (agree : Agree dir left right)
    (confined : Confined dir path) :
    left.resolve dir path = right.resolve dir path ∧
      ∀ place, left.resolve dir path = some place → left.node place = right.node place := by
  simp only [resolve]
  split_ifs with nul
  · exact ⟨rfl, by simp⟩
  · have stays : Stays dir (start dir path) (parts path) := confined.resolve_left nul
    obtain ⟨same, near⟩ := foldlM_step_congr agree stays
    exact ⟨same, fun place found => agree.node_eq (near place found)⟩

end Reading

section Escaping

/-- The tree whose directories are these places and nothing else. -/
def ofDirs (keep : Location → Bool) (root : keep [] = true)
    (closed : ∀ name parent, keep (name :: parent) = true → keep parent = true) : FileTree where
  node place := if keep place then some .dir else none
  obstacle _ := none
  root_dir := by simp [root]
  parent_dir := by
    intro name parent present
    have kept : keep (name :: parent) = true := by simpa using present
    simp [closed name parent kept]

variable {dir place : Location}

theorem step_of_missing {tree : FileTree} {part : String} (near : Near dir place)
    (outside : ¬ Near dir (lexicalStep place part))
    (missing : tree.node (lexicalStep place part) = none) : tree.step place part = none := by
  by_cases stay : part = "" ∨ part = "."
  · rw [lexicalStep, if_pos stay] at outside
    exact absurd near outside
  · by_cases up : part = ".."
    · rw [lexicalStep, if_neg stay, if_pos up] at outside
      exact absurd near.tail outside
    · rw [lexicalStep, if_neg stay, if_neg up] at missing
      simp [step, stay, up, has, missing]

/-- A path that leaves the surroundings of the directory has a first place
outside; it leads nowhere in a tree without that place. -/
theorem exists_exit {parts : List String} (near : Near dir place)
    (leaves : ¬ Stays dir place parts) :
    ∃ exit ∈ visited place parts, ¬ Near dir exit ∧
      ∀ tree : FileTree, tree.node exit = none →
        (∀ other ∈ visited place parts, Near dir other → tree.node other = some .dir) →
        parts.foldlM tree.step place = none := by
  induction parts generalizing place with
  | nil => exact absurd (by simpa [Stays, visited] using near) leaves
  | cons part rest ih =>
      by_cases there : Near dir (lexicalStep place part)
      · have later : ¬ Stays dir (lexicalStep place part) rest := by
          intro stays
          refine leaves fun other member => ?_
          rcases List.mem_cons.mp member with rfl | member
          · exact near
          · exact stays other member
        obtain ⟨exit, member, outside, leads⟩ := ih there later
        refine ⟨exit, List.mem_cons_of_mem _ member, outside, ?_⟩
        intro tree missing dirs
        have here := dirs place (mem_visited place _) near
        have next := dirs _ (List.mem_cons_of_mem _ (mem_visited _ rest)) there
        rw [List.foldlM_cons, step_of_dirs here next]
        exact leads tree missing fun other member => dirs other (List.mem_cons_of_mem _ member)
      · refine ⟨_, List.mem_cons_of_mem _ (mem_visited _ rest), there, ?_⟩
        intro tree missing dirs
        rw [List.foldlM_cons, step_of_missing near there missing]
        rfl

/-- The directories that lie on the way of a path, and the directory itself. -/
def onTheWay (dir place : Location) (parts : List String) (other : Location) : Bool :=
  (dir :: visited place parts).any fun passed => decide (other <:+ passed)

theorem onTheWay_iff {parts : List String} {other : Location} :
    onTheWay dir place parts other = true ↔ ∃ passed ∈ dir :: visited place parts, other <:+ passed := by
  simp [onTheWay]

theorem onTheWay_of_suffix {parts : List String} {inner other : Location} (below : inner <:+ other)
    (kept : onTheWay dir place parts other = true) : onTheWay dir place parts inner = true := by
  obtain ⟨passed, member, suffix⟩ := onTheWay_iff.mp kept
  exact onTheWay_iff.mpr ⟨passed, member, below.trans suffix⟩

theorem start_near (dir : Location) (path : String) : Near dir (start dir path) := by
  rw [start]
  split_ifs
  · exact .inl (List.nil_suffix)
  · exact .inl (List.suffix_refl _)

/-- For a path that is not confined there are trees that agree on the directory,
and in only one of them the path leads somewhere. -/
theorem exists_distinguishing {path : String} (escapes : ¬ Confined dir path) :
    ∃ left right, Agree dir left right ∧
      (∃ place, left.resolve dir path = some place ∧ left.node place = some .dir) ∧
      right.resolve dir path = none := by
  obtain ⟨plain, leaves⟩ := not_or.mp escapes
  obtain ⟨exit, passed, outside, leads⟩ := exists_exit (start_near dir path) leaves
  let keep := onTheWay dir (start dir path) (parts path)
  have root : keep [] = true :=
    onTheWay_iff.mpr ⟨dir, by simp, List.nil_suffix⟩
  have closed : ∀ name parent, keep (name :: parent) = true → keep parent = true :=
    fun name parent => onTheWay_of_suffix (List.suffix_cons name parent)
  have kept : ∀ other ∈ dir :: visited (start dir path) (parts path), keep other = true :=
    fun other member => onTheWay_iff.mpr ⟨other, member, List.suffix_refl _⟩
  -- Nothing near the directory lies below the exit.
  have clear : ∀ {other}, Near dir other → ¬ exit <:+ other :=
    fun near below => outside (near_of_suffix below near)
  let left := ofDirs keep root closed
  let right := ofDirs (fun other => keep other && !decide (exit <:+ other))
    (by simpa [root] using clear (.inl List.nil_suffix))
    (by
      intro name parent present
      simp only [Bool.and_eq_true, Bool.not_eq_true', decide_eq_false_iff_not] at present ⊢
      exact ⟨closed name parent present.1,
        fun below => present.2 (below.trans (List.suffix_cons name parent))⟩)
  have same : ∀ {other}, Near dir other → right.node other = left.node other := by
    intro other near
    simp [left, right, ofDirs, clear near]
  have leftDir : ∀ other ∈ dir :: visited (start dir path) (parts path),
      left.node other = some .dir := by
    intro other member
    simp [left, ofDirs, kept other member]
  refine ⟨left, right, ⟨leftDir dir (by simp), ?_, ?_⟩, ?_, ?_⟩
  · rw [same (.inl (List.suffix_refl _))]
    exact leftDir dir (by simp)
  · intro name
    exact (same (.inr ⟨by simp, rfl⟩)).symm
  · obtain ⟨last, member, walked⟩ := foldlM_step_of_dirs fun other member =>
      leftDir other (List.mem_cons_of_mem _ member)
    exact ⟨last, by rw [resolve, if_neg plain, walked], leftDir last (List.mem_cons_of_mem _ member)⟩
  · rw [resolve, if_neg plain]
    apply leads right
    · simp [right, ofDirs]
    · intro other member near
      rw [same near]
      exact leftDir other (List.mem_cons_of_mem _ member)

end Escaping

end Foculus.Data.FileTree
