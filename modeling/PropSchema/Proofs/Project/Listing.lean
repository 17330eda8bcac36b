import PropSchema.Proofs.Project.Exclusions
/-!
What a scan of a directory visits. A walk leaves out directories with all that is below them, and yet
it finds the files that are left when each file of the tree is judged by itself: by its name, its
place and the directories above it. It finds each of them once, in an order that places alone tell,
so it does not matter in which order a directory lists its entries.
-/
namespace PropSchema

namespace FileTree
variable {rules : List Exclusion} {t t' node : FileTree} {above front p q : List String}
  {name : String}

/-- A file stands at a place of a tree. -/
def HasFile (t : FileTree) (q : List String) : Prop := ∃ bytes, t.find? q = some (file bytes)

/-- A place that nothing leaves out: it has the name of a source, no rule excludes it, and no
directory above it is skipped for its name or excluded. -/
structure Kept (rules : List Exclusion) (q : List String) : Prop where
  named : ∃ name ∈ q.getLast?, isSourceName name
  included : Exclusion.excludes rules (shownPlace q) false = false
  entered : ∀ before dir rest, q = before ++ dir :: rest → rest ≠ [] → dir ∉ skippedNames ∧
    Exclusion.excludes rules (shownPlace (before ++ [dir])) true = false

theorem wantsDirectory_iff : wantsDirectory rules p name = true ↔
    name ∉ skippedNames ∧ Exclusion.excludes rules (shownPlace p) true = false := by
  rw [wantsDirectory, Bool.and_eq_true, Bool.not_eq_true', Bool.not_eq_true', Bool.eq_false_iff,
    ne_eq, List.contains_iff_mem]

theorem wantsFile_iff : wantsFile rules p name = true ↔
    isSourceName name = true ∧ Exclusion.excludes rules (shownPlace p) false = false := by
  rw [wantsFile, Bool.and_eq_true, Bool.not_eq_true']

/-- A walk looks into a directory if it wants each directory on the way there. -/
theorem visited_iff (hfind : t.find? (front ++ [name]) = some node) :
    Visited rules above t front ↔ ∀ before dir rest, front = before ++ dir :: rest →
      wantsDirectory rules (above ++ before ++ [dir]) dir := by
  induction front generalizing above t with
  | nil =>
      constructor
      · intro _ before dir rest hfront
        simp at hfront
      · exact fun _ => .top
  | cons next front ih =>
      rw [List.cons_append, find?] at hfind
      obtain ⟨inner, hentry, hinner⟩ := Option.bind_eq_some_iff.mp hfind
      have hdirectory : inner.isDirectory := by
        cases inner with
        | file bytes => simpa using (find?_file hinner).1
        | directory entries => rfl
      constructor
      · rintro (_ | ⟨entry, _, wanted, further⟩) before dir rest hfront
        obtain rfl := Option.some.inj (hentry.symm.trans entry)
        cases before with
        | nil =>
            cases hfront
            rwa [List.append_nil]
        | cons _ before =>
            cases hfront
            rw [List.append_cons above]
            exact (ih hinner).mp further before dir rest rfl
      · intro hall
        refine .into hentry hdirectory ?_ ((ih hinner).mpr fun before dir rest hfront => ?_)
        · simpa using hall [] next front rfl
        · rw [← List.append_cons]
          exact hall (next :: before) dir rest (by rw [hfront]; rfl)

/-- A walk finds the files that are left when each file is judged by its own place. -/
theorem mem_sources_iff (hwell : t.WellFormed) : q ∈ sources rules t ↔ t.HasFile q ∧ Kept rules q := by
  rw [sources, mem_sourcesBelow_iff hwell]
  constructor
  · rintro ⟨front, name, bytes, rfl, hvisited, hfind, hwanted⟩
    obtain ⟨hname, hincluded⟩ := wantsFile_iff.mp hwanted
    refine ⟨⟨bytes, hfind⟩, ⟨name, by simp, hname⟩, hincluded, fun before dir rest hq hrest => ?_⟩
    obtain ⟨rest, last, rfl⟩ := (List.eq_nil_or_concat rest).resolve_left hrest
    rw [List.nil_append, List.concat_eq_append, ← List.cons_append, ← List.append_assoc] at hq
    have hfront := (List.append_inj' hq rfl).1
    exact wantsDirectory_iff.mp ((visited_iff hfind).mp hvisited before dir rest hfront)
  · rintro ⟨⟨bytes, hfind⟩, hkept⟩
    obtain ⟨name, hlast, hname⟩ := hkept.named
    obtain ⟨front, rfl⟩ : ∃ front, q = front ++ [name] := List.getLast?_eq_some_iff.mp hlast
    refine ⟨front, name, bytes, rfl, (visited_iff hfind).mpr ?_, hfind,
      wantsFile_iff.mpr ⟨hname, hkept.included⟩⟩
    rintro before dir rest rfl
    exact wantsDirectory_iff.mpr
      (hkept.entered before dir (rest ++ [name]) (by simp) (by simp))

/-- The order of a walk. Files of one directory come by name and before what its subdirectories
hold, and the subdirectories come by name. -/
inductive Before : List String → List String → Prop
  | files {a b : String} (h : a < b) : Before [a] [b]
  | filesFirst {a b : String} {q : List String} (hq : q ≠ []) : Before [a] (b :: q)
  | directories {a b : String} {p q : List String} (hp : p ≠ []) (hq : q ≠ []) (h : a < b) :
      Before (a :: p) (b :: q)
  | within {a : String} {p q : List String} (h : Before p q) : Before (a :: p) (a :: q)

theorem Before.asymm (h : Before p q) : ¬ Before q p := by
  induction h with
  | files h =>
      rintro (h' | hq | ⟨hp, -, -⟩ | h')
      · exact String.lt_asymm h h'
      · exact hq rfl
      · exact hp rfl
      · nomatch h'
  | filesFirst hq =>
      rintro (_ | hq' | ⟨-, hq', -⟩ | h')
      · exact hq rfl
      · exact hq' rfl
      · exact hq' rfl
      · nomatch h'
  | directories hp hq h =>
      rintro (_ | _ | ⟨-, -, h'⟩ | _)
      · exact hp rfl
      · exact hq rfl
      · exact String.lt_asymm h h'
      · exact String.lt_irrefl _ h
  | within h ih =>
      rintro (h' | _ | ⟨-, -, h'⟩ | h')
      · nomatch h
      · nomatch h
      · exact String.lt_irrefl _ h'
      · exact ih h'

theorem Before.ne (h : Before p q) : p ≠ q := by
  rintro rfl
  exact h.asymm h

theorem Before.append_left (above : List String) (h : Before p q) :
    Before (above ++ p) (above ++ q) := by
  induction above with
  | nil => exact h
  | cons name above ih => exact .within ih

/-- Entries of different names are sorted without ties. -/
theorem pairwise_sorted {yields : List Yield} (h : (yields.map Yield.name).Nodup) :
    (yields.mergeSort fun a b => Text.le a.name b.name).Pairwise fun a b => a.name < b.name := by
  have hnames : ((yields.mergeSort fun a b => Text.le a.name b.name).map Yield.name).Nodup :=
    ((List.mergeSort_perm _ _).map _).nodup_iff.mpr h
  apply ((Sequences.pairwise_mergeSort Yield.name yields).and (List.pairwise_map.mp hnames)).imp
  rintro a b ⟨hle, hne⟩
  exact Decidable.of_not_not fun hlt => hne (String.le_antisymm hle (String.not_lt.mp hlt))

/-- What the entry of a name gives stands where the name leads, in the order of a walk. -/
structure Yield.Placed (above : List String) (y : Yield) : Prop where
  ordered : y.files.Pairwise Before
  file : y.isDirectory = false → ∀ q ∈ y.files, q = above ++ [y.name]
  directory : y.isDirectory → ∀ q ∈ y.files, ∃ rest ≠ [], q = above ++ y.name :: rest

theorem placed_yieldOf (hwell : node.WellFormed)
    (h : (sourcesBelow rules (above ++ [name]) node).Pairwise Before) :
    (yieldOf rules above (name, node)).Placed above := by
  refine ⟨?_, fun hfile q hq => ?_, fun hdirectory q hq => ?_⟩
  · cases node with
    | file bytes =>
        rw [yieldOf_file]
        split
        · exact List.pairwise_singleton _ _
        · exact .nil
    | directory entries =>
        rw [yieldOf_directory]
        split
        · exact h
        · exact .nil
  · rcases mem_files_yieldOf.mp hq with ⟨hdirectory, -, -⟩ | ⟨-, -, hq⟩
    · exact absurd hdirectory (Bool.eq_false_iff.mp hfile)
    · exact hq
  · rcases mem_files_yieldOf.mp hq with ⟨-, -, hq⟩ | ⟨⟨bytes, rfl⟩, -, -⟩
    · obtain ⟨front, last, bytes, rfl, -⟩ := (mem_sourcesBelow_iff hwell).mp hq
      exact ⟨front ++ [last], by simp, by simp [yieldOf]⟩
    · cases hdirectory

theorem pairwise_ordered {yields : List Yield} (hnames : (yields.map Yield.name).Nodup)
    (hplaced : ∀ y ∈ yields, y.Placed above) : (ordered yields).Pairwise Before := by
  have hsorted := pairwise_sorted hnames
  have hplaced : ∀ y ∈ yields.mergeSort fun a b => Text.le a.name b.name, y.Placed above :=
    fun y hy => hplaced y ((List.mergeSort_perm _ _).mem_iff.mp hy)
  rw [ordered]
  generalize yields.mergeSort _ = sorted at hsorted hplaced
  have hfile : ∀ {y}, y ∈ sorted.filter (fun y => !y.isDirectory) → y.Placed above ∧
      ∀ q ∈ y.files, q = above ++ [y.name] := by
    intro y hy
    obtain ⟨hy, hkind⟩ := List.mem_filter.mp hy
    exact ⟨hplaced y hy, (hplaced y hy).file (by simpa using hkind)⟩
  have hdirectory : ∀ {y}, y ∈ sorted.filter (fun y => y.isDirectory) → y.Placed above ∧
      ∀ q ∈ y.files, ∃ rest ≠ [], q = above ++ y.name :: rest := by
    intro y hy
    obtain ⟨hy, hkind⟩ := List.mem_filter.mp hy
    exact ⟨hplaced y hy, (hplaced y hy).directory hkind⟩
  apply List.pairwise_append.mpr
  refine ⟨List.pairwise_flatMap.mpr ⟨fun y hy => (hfile hy).1.ordered, ?_⟩,
    List.pairwise_flatMap.mpr ⟨fun y hy => (hdirectory hy).1.ordered, ?_⟩, ?_⟩
  · apply (hsorted.sublist List.filter_sublist).imp_of_mem
    intro y y' hy hy' hlt q hq q' hq'
    rw [(hfile hy).2 q hq, (hfile hy').2 q' hq']
    exact (Before.files hlt).append_left above
  · apply (hsorted.sublist List.filter_sublist).imp_of_mem
    intro y y' hy hy' hlt q hq q' hq'
    obtain ⟨rest, hrest, rfl⟩ := (hdirectory hy).2 q hq
    obtain ⟨rest', hrest', rfl⟩ := (hdirectory hy').2 q' hq'
    exact (Before.directories hrest hrest' hlt).append_left above
  · intro q hq q' hq'
    obtain ⟨y, hy, hq⟩ := List.mem_flatMap.mp hq
    obtain ⟨y', hy', hq'⟩ := List.mem_flatMap.mp hq'
    obtain ⟨rest, hrest, rfl⟩ := (hdirectory hy').2 q' hq'
    rw [(hfile hy).2 q hq]
    exact (Before.filesFirst hrest).append_left above

/-- A walk finds files in its order. -/
theorem pairwise_sourcesBelow (hwell : t.WellFormed) :
    (sourcesBelow rules above t).Pairwise Before := by
  induction hwell generalizing above with
  | file =>
      rw [sourcesBelow]
      exact .nil
  | @directory entries nodup noDots within ih =>
      rw [sourcesBelow, yieldsBelow_eq_map]
      apply pairwise_ordered
      · rw [List.map_map]
        exact nodup
      · intro y hy
        obtain ⟨entry, hentry, rfl⟩ := List.mem_map.mp hy
        exact placed_yieldOf (within entry hentry) (ih entry hentry)

theorem nodup_sources (hwell : t.WellFormed) : (sources rules t).Nodup :=
  (pairwise_sourcesBelow hwell).imp Before.ne

/-- Trees with the same files are walked alike, in whatever order they list their entries. -/
theorem sources_eq (hwell : t.WellFormed) (hwell' : t'.WellFormed)
    (hsame : ∀ q, t'.HasFile q ↔ t.HasFile q) : sources rules t' = sources rules t := by
  have hperm : (sources rules t').Perm (sources rules t) := by
    apply (List.perm_ext_iff_of_nodup (nodup_sources hwell') (nodup_sources hwell)).mpr
    intro q
    rw [mem_sources_iff hwell', mem_sources_iff hwell, hsame q]
  exact hperm.eq_of_pairwise (fun _ _ _ _ h h' => absurd h' h.asymm)
    (pairwise_sourcesBelow hwell') (pairwise_sourcesBelow hwell)

end FileTree

namespace Scanner
open FileTree (Kept Before)
variable {s : Scanner} {w : Workspace} {d : Path} {place : Place} {t : FileTree}

/-- A scan of a directory visits each file that nothing leaves out, and no other one. It visits each
once and in the order of a walk, and the same ones in a workspace that has the same files there, in
whatever order the directories of either list their entries. -/
theorem visits_what_is_kept (hwell : w.tree.WellFormed) (hd : w.locate d = .ok (place, t))
    (hdirectory : t.isDirectory) :
    ∃ (files : List Path) (found : List (List String)), s.files w [d] = .ok files ∧ files.Nodup ∧
      files = found.map (fun q => d.join ⟨"", q⟩) ∧ found.Pairwise Before ∧
      (∀ q, q ∈ found ↔ t.HasFile q ∧ Kept s.exclusions q) ∧
      ∀ w' place' t', w'.tree.WellFormed → w'.locate d = .ok (place', t') → t'.isDirectory →
        (∀ q, t'.HasFile q ↔ t.HasFile q) → s.files w' [d] = .ok files := by
  obtain ⟨-, hfind⟩ := Workspace.locate_eq hd
  have ht := (hwell.find? hfind).1
  have hinjective : Function.Injective fun q : List String => d.join ⟨"", q⟩ := fun _ _ h =>
    List.append_cancel_left (congrArg Path.parts h)
  refine ⟨_, FileTree.sources s.exclusions t, files_of_directory hd hdirectory,
    (FileTree.nodup_sources ht).map hinjective, rfl, FileTree.pairwise_sourcesBelow ht,
    fun q => FileTree.mem_sources_iff ht, ?_⟩
  intro w' place' t' hwell' hd' hdirectory' hsame
  obtain ⟨-, hfind'⟩ := Workspace.locate_eq hd'
  rw [files_of_directory hd' hdirectory', FileTree.sources_eq ht (hwell'.find? hfind').1 hsame]

/-- A directory that lists its subdirectory first, which has an excluded directory and a file. -/
def shelfEntries : List (String × FileTree) :=
  [("src", .directory [("old", .directory [("Z.ts", .file [])]), ("Tab.ts", .file [])]),
    ("main.ts", .file [])]

def shelves : Workspace := ⟨.directory shelfEntries, []⟩

/-- The same files, with the entries listed the other way round. -/
def turnedShelves : Workspace := ⟨.directory shelfEntries.reverse, []⟩

theorem shelves_visited : ∃ files, designScanner.files shelves [.here] = .ok files ∧
    designScanner.files turnedShelves [.here] = .ok files ∧ files.Nodup ∧
    .ofText "src/Tab.ts" ∈ files ∧ .ofText "src/old/Z.ts" ∉ files := by
  have hfile : (FileTree.file []).WellFormed := .file
  have hold : (FileTree.directory [("Z.ts", .file [])]).WellFormed :=
    .directory (by decide) (by decide) (List.forall_mem_singleton.mpr hfile)
  have hsrc : (FileTree.directory [("old", .directory [("Z.ts", .file [])]),
      ("Tab.ts", .file [])]).WellFormed :=
    .directory (by decide) (by decide)
      (List.forall_mem_cons.mpr ⟨hold, List.forall_mem_singleton.mpr hfile⟩)
  have hentries : ∀ entry ∈ shelfEntries, entry.2.WellFormed :=
    List.forall_mem_cons.mpr ⟨hsrc, List.forall_mem_singleton.mpr hfile⟩
  have hnames : (Entries.keys shelfEntries).Nodup := by decide
  have hwell : shelves.tree.WellFormed := .directory hnames (by decide) hentries
  have hturned : turnedShelves.tree.WellFormed :=
    .directory (by decide) (by decide) fun entry h => hentries entry (List.mem_reverse.mp h)
  have hsame : ∀ q, turnedShelves.tree.HasFile q ↔ shelves.tree.HasFile q := by
    intro q
    cases q with
    | nil => constructor <;> exact fun ⟨_, h⟩ => nomatch h
    | cons name q =>
        have hentry : turnedShelves.tree.entry? name = shelves.tree.entry? name :=
          (Entries.lookup_perm (List.reverse_perm shelfEntries).symm hnames).symm
        rw [FileTree.HasFile, FileTree.HasFile, FileTree.find?, FileTree.find?, hentry]
  obtain ⟨files, found, hfiles, hnodup, rfl, -, hkept, hthere⟩ :=
    visits_what_is_kept (s := designScanner) (w := shelves) (d := .here) hwell rfl rfl
  refine ⟨_, hfiles, hthere turnedShelves [] _ hturned rfl rfl hsame, hnodup, ?_, ?_⟩
  · apply List.mem_map.mpr
    refine ⟨["src", "Tab.ts"], (hkept _).mpr ⟨⟨[], rfl⟩, ⟨"Tab.ts", rfl, by decide⟩, by decide, ?_⟩, rfl⟩
    rintro (_ | ⟨_, _ | ⟨_, before⟩⟩) dir rest hq hrest
    · cases hq
      decide
    · cases hq
      exact absurd rfl hrest
    · simp at hq
  · intro hmem
    obtain ⟨q, hq, hjoin⟩ := List.mem_map.mp hmem
    obtain rfl : q = ["src", "old", "Z.ts"] := congrArg Path.parts hjoin
    have hentered := ((hkept _).mp hq).2.entered ["src"] "old" ["Z.ts"] rfl (by decide)
    exact absurd hentered.2 (by decide)

end Scanner

end PropSchema
