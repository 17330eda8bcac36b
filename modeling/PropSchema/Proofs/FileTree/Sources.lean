import PropSchema.FileTree.Sources
import PropSchema.Proofs.FileTree.WellFormed
import PropSchema.Proofs.Sequences
/-!
What a walk finds below one of the directories that it looks into. Each source stands where the
walk comes to it, in a directory that is looked into; the sources in such a directory stand side by
side, and starting there finds them in the same order. Only patterns with a slash inside can tell
the two walks apart, for all others are held against single names.
-/
namespace PropSchema

namespace Text

theorem split_ne_nil (separator : Char) (cs : List Char) : split separator cs ≠ [] := by
  cases cs with
  | nil => exact List.cons_ne_nil _ _
  | cons c rest =>
      rw [split]
      split
      · exact List.cons_ne_nil _ _
      · split <;> exact List.cons_ne_nil _ _

theorem split_append (separator : Char) (front rest : List Char) :
    split separator (front ++ separator :: rest) = split separator front ++ split separator rest := by
  induction front with
  | nil => simp [split]
  | cons c front ih =>
      rw [List.cons_append, split, split, ih]
      obtain ⟨piece, pieces, hsplit⟩ := List.exists_cons_of_ne_nil (split_ne_nil separator front)
      rw [hsplit]
      split <;> rfl

theorem split_of_notMem {separator : Char} {cs : List Char} (h : separator ∉ cs) :
    split separator cs = [cs] := by
  induction cs with
  | nil => rfl
  | cons c rest ih =>
      rw [List.mem_cons, not_or] at h
      rw [split, ih h.2, if_neg (by simpa using Ne.symm h.1)]

/-- The pieces of names that are joined are the pieces of each name. -/
theorem split_intercalate {parts : List String} (h : parts ≠ []) :
    split '/' ("/".intercalate parts).toList = parts.flatMap fun part => split '/' part.toList := by
  rw [String.toList_intercalate]
  induction parts with
  | nil => exact absurd rfl h
  | cons part parts ih =>
      cases parts with
      | nil => simp [List.intercalate]
      | cons next more =>
          rw [List.flatMap_cons, ← ih (List.cons_ne_nil next more), ← split_append]
          simp [List.intercalate]

end Text

namespace FileTree
variable {rules : List Exclusion} {t inner : FileTree} {above parts front q : List String}
  {name : String} {entries : List (String × FileTree)}

/-- What one entry of a directory gives. -/
def yieldOf (rules : List Exclusion) (above : List String) (entry : String × FileTree) : Yield where
  name := entry.1
  isDirectory := entry.2.isDirectory
  files :=
    if entry.2.isDirectory then
      if wantsDirectory rules (above ++ [entry.1]) entry.1 then
        sourcesBelow rules (above ++ [entry.1]) entry.2
      else []
    else if wantsFile rules (above ++ [entry.1]) entry.1 then [above ++ [entry.1]] else []

theorem yieldsBelow_eq_map (rules : List Exclusion) (above : List String)
    (entries : List (String × FileTree)) :
    yieldsBelow rules above entries = entries.map (yieldOf rules above) := by
  induction entries with
  | nil => rw [yieldsBelow, List.map_nil]
  | cons entry rest ih => rw [yieldsBelow, ih, List.map_cons]; rfl

theorem yieldOf_file (bytes : List UInt8) : yieldOf rules above (name, file bytes) =
    ⟨name, false, if wantsFile rules (above ++ [name]) name then [above ++ [name]] else []⟩ := rfl

theorem yieldOf_directory : yieldOf rules above (name, directory entries) =
    ⟨name, true, if wantsDirectory rules (above ++ [name]) name then
      sourcesBelow rules (above ++ [name]) (directory entries) else []⟩ := rfl

theorem mem_files_yieldOf : q ∈ (yieldOf rules above (name, inner)).files ↔
    (inner.isDirectory ∧ wantsDirectory rules (above ++ [name]) name ∧
      q ∈ sourcesBelow rules (above ++ [name]) inner) ∨
    ((∃ bytes, inner = file bytes) ∧ wantsFile rules (above ++ [name]) name ∧
      q = above ++ [name]) := by
  cases inner with
  | file bytes =>
      by_cases hwanted : wantsFile rules (above ++ [name]) name <;>
        simp [yieldOf_file, isDirectory, hwanted]
  | directory entries =>
      by_cases hwanted : wantsDirectory rules (above ++ [name]) name <;>
        simp [yieldOf_directory, isDirectory, hwanted]

theorem exists_perm_ordered (yields : List Yield) :
    ∃ arranged : List Yield, arranged.Perm yields ∧ ordered yields = arranged.flatMap Yield.files := by
  let sorted := yields.mergeSort fun a b => Text.le a.name b.name
  have hsorted : (sorted.filter (fun y => y.isDirectory) ++ sorted.filter fun y => !y.isDirectory).Perm
      yields := (List.filter_append_perm _ _).trans (List.mergeSort_perm _ _)
  exact ⟨_, List.perm_append_comm.trans hsorted, List.flatMap_append.symm⟩

theorem mem_ordered {yields : List Yield} : q ∈ ordered yields ↔ ∃ y ∈ yields, q ∈ y.files := by
  obtain ⟨arranged, hperm, hordered⟩ := exists_perm_ordered yields
  rw [hordered, List.mem_flatMap]
  exact exists_congr fun y => and_congr_left fun _ => hperm.mem_iff

theorem mem_sourcesBelow : q ∈ sourcesBelow rules above t ↔
    ∃ name inner, (name, inner) ∈ t.entries ∧ q ∈ (yieldOf rules above (name, inner)).files := by
  cases t with
  | file bytes => simp [sourcesBelow, FileTree.entries]
  | directory entries =>
      rw [sourcesBelow, mem_ordered, yieldsBelow_eq_map, FileTree.entries]
      simp only [List.mem_map, exists_exists_and_eq_and]
      exact Prod.exists

/-- The directories that a walk looks into, each by the parts that lead there from a tree that is
itself at some parts below the directory that is walked. -/
inductive Visited (rules : List Exclusion) : List String → FileTree → List String → Prop
  | top {above : List String} {t : FileTree} : Visited rules above t []
  | into {above parts : List String} {t inner : FileTree} {name : String}
      (entry : t.entry? name = some inner) (directory : inner.isDirectory)
      (wanted : wantsDirectory rules (above ++ [name]) name)
      (further : Visited rules (above ++ [name]) inner parts) : Visited rules above t (name :: parts)

theorem Visited.isDirectory (h : Visited rules above t parts) (htop : t.isDirectory)
    (hfind : t.find? parts = some inner) : inner.isDirectory := by
  induction h with
  | top => exact Option.some.inj hfind ▸ htop
  | into entry directory _ _ ih =>
      rw [FileTree.find?, entry] at hfind
      exact ih directory hfind

/-- A directory that is looked into is not excluded. -/
theorem Visited.not_excluded (h : Visited rules above t parts) (hne : parts ≠ []) :
    Exclusion.excludes rules (shownPlace (above ++ parts)) true = false := by
  induction h with
  | top => exact absurd rfl hne
  | @into above parts t inner name _ _ wanted further ih =>
      rw [List.append_cons]
      cases parts with
      | nil =>
          rw [wantsDirectory, Bool.and_eq_true, Bool.not_eq_true', Bool.not_eq_true'] at wanted
          rw [List.append_nil, wanted.2]
      | cons next parts => exact ih (List.cons_ne_nil next parts)

/-- The sources of a walk are the wanted files in the directories that it looks into. -/
theorem mem_sourcesBelow_iff (hwell : t.WellFormed) : q ∈ sourcesBelow rules above t ↔
    ∃ front name bytes, q = above ++ (front ++ [name]) ∧ Visited rules above t front ∧
      t.find? (front ++ [name]) = some (file bytes) ∧ wantsFile rules q name := by
  constructor
  -- a file that is found is in an entry of the directory, or below one that is looked into
  · intro h
    induction hwell generalizing above with
    | file => rw [sourcesBelow] at h; nomatch h
    | @directory entries nodup noDots within ih =>
        obtain ⟨name, inner, hmem, hq⟩ := mem_sourcesBelow.mp h
        have hentry : FileTree.entry? name (directory entries) = some inner :=
          Entries.lookup_of_mem nodup hmem
        rcases mem_files_yieldOf.mp hq with ⟨hdirectory, hwanted, hq⟩ | ⟨⟨bytes, rfl⟩, hwanted, rfl⟩
        · obtain ⟨front, last, bytes, rfl, hvisited, hfind, hlast⟩ := ih _ hmem hq
          refine ⟨name :: front, last, bytes, by simp, .into hentry hdirectory hwanted hvisited,
            ?_, hlast⟩
          rw [List.cons_append, FileTree.find?, hentry]
          exact hfind
        · refine ⟨[], name, bytes, rfl, .top, ?_, hwanted⟩
          rw [List.nil_append, FileTree.find?, hentry]
          rfl
  -- and the walk follows the way down to a file, one directory after the other
  · rintro ⟨front, name, bytes, rfl, hvisited, hfind, hwanted⟩
    induction hvisited with
    | @top above t =>
        rw [List.nil_append, FileTree.find?] at hfind
        obtain ⟨inner, hentry, hinner⟩ := Option.bind_eq_some_iff.mp hfind
        obtain rfl : inner = file bytes := Option.some.inj hinner
        rw [← lookup_entries] at hentry
        exact mem_sourcesBelow.mpr ⟨name, _, Entries.mem_of_lookup hentry,
          mem_files_yieldOf.mpr (.inr ⟨⟨bytes, rfl⟩, hwanted, rfl⟩)⟩
    | @into above parts t inner next entry hdirectory wanted further ih =>
        rw [List.cons_append, FileTree.find?, entry] at hfind
        have hinner := (hwell.find? (q := [next]) (by rw [FileTree.find?, entry]; rfl)).1
        rw [← lookup_entries] at entry
        rw [List.cons_append, List.append_cons] at hwanted ⊢
        exact mem_sourcesBelow.mpr ⟨next, _, Entries.mem_of_lookup entry,
          mem_files_yieldOf.mpr (.inl ⟨hdirectory, wanted, ih hinner hfind hwanted⟩)⟩

theorem prefix_of_mem_yieldOf (hwell : inner.WellFormed)
    (h : q ∈ (yieldOf rules above (name, inner)).files) : above ++ [name] <+: q := by
  rcases mem_files_yieldOf.mp h with ⟨-, -, h⟩ | ⟨-, -, rfl⟩
  · obtain ⟨front, last, _, rfl, -⟩ := (mem_sourcesBelow_iff hwell).mp h
    exact List.prefix_append _ _
  · exact List.prefix_rfl

/-- What the sources of a directory are that stand below one of its subdirectories. -/
theorem filter_sourcesBelow_of_entry (hwell : t.WellFormed) (hentry : t.entry? name = some inner)
    (hdirectory : inner.isDirectory) (hwanted : wantsDirectory rules (above ++ [name]) name) :
    (sourcesBelow rules above t).filter (above ++ [name]).isPrefixOf =
      sourcesBelow rules (above ++ [name]) inner := by
  cases t with
  | file bytes => nomatch hentry
  | directory entries =>
      obtain ⟨nodup, -, hwithin⟩ := hwell.of_entries
      have hmem := Entries.mem_of_lookup hentry
      obtain ⟨arranged, hperm, hordered⟩ := exists_perm_ordered (entries.map (yieldOf rules above))
      have hnames : (arranged.map Yield.name).Nodup := by
        refine (hperm.map Yield.name).nodup_iff.mpr ?_
        rw [List.map_map]
        exact nodup
      -- whatever another entry gives begins with another name
      have hothers : ∀ y ∈ arranged, y.name ≠ name →
          y.files.filter (above ++ [name]).isPrefixOf = [] := by
        intro y hy hname
        obtain ⟨⟨other, t'⟩, hother, rfl⟩ := List.mem_map.mp (hperm.mem_iff.mp hy)
        refine List.filter_eq_nil_iff.mpr fun q hq hprefix => hname ?_
        have hq := prefix_of_mem_yieldOf (hwithin _ hother) hq
        have heq := List.prefix_of_prefix_length_le hq (List.isPrefixOf_iff_prefix.mp hprefix)
          (by simp)
        exact (List.singleton_inj.mp (List.append_cancel_left (heq.eq_of_length (by simp))))
      have hown : yieldOf rules above (name, inner) ∈ arranged :=
        hperm.mem_iff.mpr (List.mem_map_of_mem hmem)
      rw [sourcesBelow, yieldsBelow_eq_map, hordered, List.filter_flatMap,
        Sequences.flatMap_eq_of_nodup Yield.name hnames hown hothers, yieldOf, if_pos hdirectory, if_pos hwanted]
      refine List.filter_eq_self.mpr fun q hq => ?_
      obtain ⟨front, last, _, rfl, -⟩ := (mem_sourcesBelow_iff (hwithin _ hmem)).mp hq
      exact List.isPrefixOf_iff_prefix.mpr (List.prefix_append _ _)

/-- What the sources of a walk are that stand below a directory that is looked into. -/
theorem filter_sourcesBelow (hwell : t.WellFormed) (h : Visited rules above t parts)
    (hfind : t.find? parts = some inner) :
    (sourcesBelow rules above t).filter (above ++ parts).isPrefixOf =
      sourcesBelow rules (above ++ parts) inner := by
  induction h with
  | @top above t =>
      obtain rfl : t = inner := Option.some.inj hfind
      rw [List.append_nil]
      refine List.filter_eq_self.mpr fun q hq => ?_
      obtain ⟨front, last, _, rfl, -⟩ := (mem_sourcesBelow_iff hwell).mp hq
      exact List.isPrefixOf_iff_prefix.mpr (List.prefix_append _ _)
  | @into above parts t next name entry hdirectory wanted further ih =>
      rw [FileTree.find?, entry] at hfind
      have hnext := (hwell.find? (q := [name]) (by rw [FileTree.find?, entry]; rfl)).1
      have hnested : ∀ q : List String, (above ++ [name] ++ parts).isPrefixOf q =
          ((above ++ [name] ++ parts).isPrefixOf q && (above ++ [name]).isPrefixOf q) := by
        intro q
        rw [Bool.eq_iff_iff, Bool.and_eq_true, List.isPrefixOf_iff_prefix, List.isPrefixOf_iff_prefix,
          iff_self_and]
        exact (List.prefix_append _ _).trans
      rw [List.append_cons, ← ih hnext hfind,
        ← filter_sourcesBelow_of_entry hwell entry hdirectory wanted, List.filter_filter]
      exact List.filter_congr fun q _ => hnested q

/-- Patterns with a slash inside decide alike about all that is in a directory, whether they are
held against its place there or against its place from further up. -/
def DecidesAlike (rules : List Exclusion) (above : List String) (t : FileTree) : Prop :=
  ∀ e ∈ rules, e.hasSlash → ∀ q inner, t.find? q = some inner → q ≠ [] →
    e.isMatch (shownPlace (above ++ q)) inner.isDirectory =
      e.isMatch (shownPlace q) inner.isDirectory

end FileTree

/-- A pattern without a slash inside that lets a directory pass decides about what is in it by the
names further down. -/
theorem Exclusion.isMatch_append {e : Exclusion} {above parts : List String}
    (hslash : e.hasSlash = false)
    (habove : above ≠ [] → e.isMatch (FileTree.shownPlace above) true = false) (hne : parts ≠ [])
    (isDirectory : Bool) :
    e.isMatch (FileTree.shownPlace (above ++ parts)) isDirectory =
      e.isMatch (FileTree.shownPlace parts) isDirectory := by
  by_cases hfile : e.directoryOnly && !isDirectory
  · rw [isMatch, isMatch, if_pos hfile, if_pos hfile]
  · rw [isMatch, isMatch, if_neg hfile, if_neg hfile, hslash, if_neg Bool.false_ne_true,
      if_neg Bool.false_ne_true, FileTree.shownPlace, FileTree.shownPlace,
      Text.split_intercalate (by simp [hne]), Text.split_intercalate hne, List.flatMap_append,
      List.any_append]
    cases above with
    | nil => rfl
    | cons first above =>
        have hnone := habove (List.cons_ne_nil first above)
        rw [isMatch, if_neg (by simp), hslash, if_neg Bool.false_ne_true, FileTree.shownPlace,
          Text.split_intercalate (List.cons_ne_nil first above)] at hnone
        rw [hnone, Bool.false_or]

namespace FileTree
variable {rules : List Exclusion} {t inner : FileTree} {above parts q : List String}

theorem excludes_append (hvisited : Visited rules [] t above)
    (halike : DecidesAlike rules above inner) {node : FileTree} (hnode : inner.find? q = some node)
    (hne : q ≠ []) :
    Exclusion.excludes rules (shownPlace (above ++ q)) node.isDirectory =
      Exclusion.excludes rules (shownPlace q) node.isDirectory := by
  have hsame : ∀ e ∈ rules, e.isMatch (shownPlace (above ++ q)) node.isDirectory =
      e.isMatch (shownPlace q) node.isDirectory := ?_
  · rw [Exclusion.excludes, Exclusion.excludes, Bool.eq_iff_iff, List.any_eq_true, List.any_eq_true]
    exact exists_congr fun e => and_congr_right fun he => by rw [hsame e he]
  intro e he
  cases hslash : e.hasSlash with
  | true => exact halike e he hslash q node hnode hne
  | false =>
      refine Exclusion.isMatch_append hslash (fun habove => ?_) hne _
      have hnone := hvisited.not_excluded habove
      rw [List.nil_append, Exclusion.excludes, List.any_eq_false] at hnone
      exact Bool.eq_false_iff.mpr (hnone e he)

/-- What an entry gives with all its files put elsewhere. -/
def Yield.relocate (f : List String → List String) (y : Yield) : Yield :=
  { y with files := y.files.map f }

theorem ordered_relocate (f : List String → List String) (yields : List Yield) :
    ordered (yields.map (Yield.relocate f)) = (ordered yields).map f := by
  have hsort : (yields.mergeSort fun a b => Text.le a.name b.name).map (Yield.relocate f) =
      (yields.map (Yield.relocate f)).mergeSort fun a b => Text.le a.name b.name :=
    List.map_mergeSort fun _ _ _ _ => rfl
  rw [ordered, ordered, ← hsort, List.filter_map, List.filter_map, List.flatMap_map, List.flatMap_map,
    List.map_append, List.map_flatMap, List.map_flatMap]
  rfl

/-- What is found below a tree does not depend on where it stands as long as the same is excluded. -/
theorem sourcesBelow_append (hwell : t.WellFormed) (parts : List String)
    (hsame : ∀ q node, t.find? q = some node → q ≠ [] →
      Exclusion.excludes rules (shownPlace (above ++ (parts ++ q))) node.isDirectory =
        Exclusion.excludes rules (shownPlace (parts ++ q)) node.isDirectory) :
    sourcesBelow rules (above ++ parts) t = (sourcesBelow rules parts t).map (above ++ ·) := by
  induction hwell generalizing parts with
  | file => rw [sourcesBelow, sourcesBelow, List.map_nil]
  | @directory entries nodup _ within ih =>
      have hyields : entries.map (yieldOf rules (above ++ parts)) =
          (entries.map (yieldOf rules parts)).map (Yield.relocate (above ++ ·)) := by
        rw [List.map_map]
        refine List.map_congr_left fun entry hmem => ?_
        obtain ⟨name, inner⟩ := entry
        have hfind : ∀ q, (directory entries).find? (name :: q) = inner.find? q := by
          intro q
          rw [FileTree.find?, FileTree.entry?, Entries.lookup_of_mem nodup hmem]
          rfl
        have hname := hsame [name] inner (hfind []) (List.cons_ne_nil name [])
        have hinner := ih _ hmem (parts ++ [name]) fun q node hnode hne => by
          have hq := hsame (name :: q) node ((hfind q).trans hnode) (List.cons_ne_nil name q)
          rwa [List.append_cons] at hq
        rw [Function.comp_apply]
        cases inner with
        | file bytes =>
            have hwants : wantsFile rules (above ++ (parts ++ [name])) name =
                wantsFile rules (parts ++ [name]) name := congrArg (isSourceName name && !·) hname
            rw [yieldOf_file, yieldOf_file, Yield.relocate, List.append_assoc, hwants,
              apply_ite (List.map _)]
            rfl
        | directory inner =>
            have hwants : wantsDirectory rules (above ++ (parts ++ [name])) name =
                wantsDirectory rules (parts ++ [name]) name :=
              congrArg (!skippedNames.contains name && !·) hname
            rw [yieldOf_directory, yieldOf_directory, Yield.relocate, List.append_assoc, hwants,
              hinner, apply_ite (List.map _)]
            rfl
      rw [sourcesBelow, sourcesBelow, yieldsBelow_eq_map, yieldsBelow_eq_map, hyields,
        ordered_relocate]

/-- Walking a directory that is looked into finds what is found below it from further up. -/
theorem filter_sources (hwell : t.WellFormed) (hvisited : Visited rules [] t above)
    (hfind : t.find? above = some inner) (halike : DecidesAlike rules above inner) :
    (sources rules t).filter above.isPrefixOf = (sources rules inner).map (above ++ ·) := by
  have hinner : sourcesBelow rules (above ++ []) inner =
      (sourcesBelow rules [] inner).map (above ++ ·) :=
    sourcesBelow_append (hwell.find? hfind).1 []
      fun q node hnode hne => excludes_append hvisited halike hnode hne
  rw [List.append_nil] at hinner
  rw [sources, sources, ← hinner]
  exact filter_sourcesBelow hwell hvisited hfind

theorem noDots_of_mem_sources (hwell : t.WellFormed) (h : q ∈ sources rules t) : ".." ∉ q := by
  obtain ⟨front, name, bytes, rfl, -, hfind, -⟩ := (mem_sourcesBelow_iff hwell).mp h
  exact (hwell.find? hfind).2

end FileTree

end PropSchema
