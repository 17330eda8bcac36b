import PropSchema.Project
import PropSchema.Proofs.FileTree.Sources
/-!
What is excluded when a scan starts further down. A pattern without a slash inside excludes the same
files wherever a scan starts. A pattern with one is held against places below the directory that is
scanned, so a scan that starts within that directory may find what the pattern excludes from above.
-/
namespace PropSchema

/-- The place of a path in a directory, where no double dots lead up. -/
theorem Workspace.resolve_join (w : Workspace) (p : Path) {parts : List String} (h : ".." ∉ parts) :
    w.resolve (p.join ⟨"", parts⟩) = w.resolve p ++ parts := by
  have hjoin : p.join ⟨"", parts⟩ = { p with parts := p.parts ++ parts } := rfl
  rw [hjoin, resolve, resolve, Path.resolve, Path.resolve, List.foldl_append]
  exact Path.foldl_step_of_noDots h _

/-- Whether a path leads to a place at or below that of another one. -/
def Workspace.isBelow (w : Workspace) (d p : Path) : Bool := (w.resolve d).isPrefixOf (w.resolve p)

namespace Scanner
open FileTree (Visited DecidesAlike sources)
variable {s : Scanner} {w : Workspace} {d d' : Path} {place : Place} {t inner : FileTree}
  {parts : List String}

theorem files_of_directory (h : w.locate d = .ok (place, t)) (hdirectory : t.isDirectory) :
    s.files w [d] = .ok ((sources s.exclusions t).map fun q => d.join ⟨"", q⟩) := by
  cases t with
  | file bytes => nomatch hdirectory
  | directory entries =>
      have hfiles : s.filesOf w d =
          .ok ((sources s.exclusions (.directory entries)).map fun q => d.join ⟨"", q⟩) := by
        rw [filesOf, h]
      rw [files, List.mapM_cons, hfiles]
      exact congrArg Except.ok (List.append_nil _)

/-- A walk that starts in a directory finds those files of a walk from further up that are in it,
in the same order. They are the same paths if the directory is spelled as the longer walk has it. -/
def FindsAlike (s : Scanner) (w : Workspace) (d d' : Path) (parts : List String) : Prop :=
  ∃ files files', s.files w [d] = .ok files ∧ s.files w [d'] = .ok files' ∧
    files'.map w.resolve = (files.filter (w.isBelow d')).map w.resolve ∧
    (d' = d.join ⟨"", parts⟩ → files' = files.filter (w.isBelow d'))

/-- A scan finds in each directory that it looks into what a scan of that directory finds, as long
as patterns with a slash inside decide alike from both. -/
theorem finds_alike (hwell : w.tree.WellFormed) (hd : w.locate d = .ok (place, t))
    (hdirectory : t.isDirectory) (hd' : w.locate d' = .ok (place ++ parts, inner))
    (hvisited : Visited s.exclusions [] t parts) (halike : DecidesAlike s.exclusions parts inner) :
    s.FindsAlike w d d' parts := by
  have hplace : w.resolve d = place := (Workspace.place_of_locate hd).symm
  have hplace' : w.resolve d' = place ++ parts := (Workspace.place_of_locate hd').symm
  obtain ⟨-, hfind⟩ := Workspace.locate_eq hd
  obtain ⟨-, hfind'⟩ := Workspace.locate_eq hd'
  rw [FileTree.find?_append, hfind] at hfind'
  have ht := (hwell.find? hfind).1
  have hinner := (ht.find? hfind').1
  have hbelow : ((sources s.exclusions t).map fun q => d.join ⟨"", q⟩).filter (w.isBelow d') =
      (sources s.exclusions inner).map fun q => d.join ⟨"", parts ++ q⟩ := by
    have hprefix : ∀ q ∈ sources s.exclusions t,
        (w.isBelow d' ∘ fun q => d.join ⟨"", q⟩) q = parts.isPrefixOf q := by
      intro q hq
      rw [Function.comp_apply, Workspace.isBelow, hplace',
        w.resolve_join d (FileTree.noDots_of_mem_sources ht hq), hplace, Bool.eq_iff_iff,
        List.isPrefixOf_iff_prefix, List.isPrefixOf_iff_prefix, List.prefix_append_right_inj]
    rw [List.filter_map, List.filter_congr hprefix, FileTree.filter_sources ht hvisited hfind' halike,
      List.map_map]
    rfl
  refine ⟨_, _, files_of_directory hd hdirectory,
    files_of_directory hd' (hvisited.isDirectory hdirectory hfind'), ?_, ?_⟩
  · rw [hbelow, List.map_map, List.map_map]
    refine List.map_congr_left fun q hq => ?_
    have hq := FileTree.noDots_of_mem_sources hinner hq
    have hparts : ".." ∉ parts ++ q := by
      rw [List.mem_append]
      exact not_or.mpr ⟨(ht.find? hfind').2, hq⟩
    rw [Function.comp_apply, Function.comp_apply, w.resolve_join d' hq, w.resolve_join d hparts,
      hplace, hplace', List.append_assoc]
  · rintro rfl
    rw [hbelow]
    refine List.map_congr_left fun q _ => ?_
    rw [Path.join, Path.join]
    exact congrArg (Path.mk d.root) (List.append_assoc ..)

/-- Patterns for built files, for stories and, with a slash inside, for one directory. -/
def designScanner : Scanner where
  settings := .default
  root := []
  registry := Registry.builtin
  exclusions := Exclusion.ofPatterns ["dist/", "*.stories.ts", "src/old"]
  signature := ""

def designSources : FileTree := .directory [("Button.stories.ts", .file []), ("Button.ts", .file [])]

def designs : Workspace :=
  ⟨.directory [("dist", .directory [("Button.ts", .file [])]), ("src", designSources)], []⟩

theorem designs_found_alike : designs.tree.WellFormed ∧
    Visited designScanner.exclusions [] designs.tree ["src"] ∧
    DecidesAlike designScanner.exclusions ["src"] designSources ∧
    designScanner.FindsAlike designs .here (.ofText "src") ["src"] := by
  have hwell : designs.tree.WellFormed := by
    have hfile : (FileTree.file []).WellFormed := .file
    have hdist : (FileTree.directory [("Button.ts", .file [])]).WellFormed :=
      .directory (by decide) (by decide) (List.forall_mem_singleton.mpr hfile)
    have hsrc : designSources.WellFormed :=
      .directory (by decide) (by decide) (List.forall_mem_cons.mpr
        ⟨hfile, List.forall_mem_singleton.mpr hfile⟩)
    exact .directory (by decide) (by decide) (List.forall_mem_cons.mpr
      ⟨hdist, List.forall_mem_singleton.mpr hsrc⟩)
  have hvisited : Visited designScanner.exclusions [] designs.tree ["src"] :=
    .into rfl rfl (by decide) .top
  have halike : DecidesAlike designScanner.exclusions ["src"] designSources := by
    have hrules : designScanner.exclusions =
        [⟨"dist", true, false⟩, ⟨"*.stories.ts", false, false⟩, ⟨"src/old", false, true⟩] := by decide
    intro e he hslash q inner hfind hne
    rw [hrules] at he
    obtain rfl : e = ⟨"src/old", false, true⟩ := by
      simp only [List.mem_cons, List.not_mem_nil, or_false] at he
      rcases he with rfl | rfl | rfl
      · nomatch hslash
      · nomatch hslash
      · rfl
    obtain ⟨name, q, rfl⟩ := List.exists_cons_of_ne_nil hne
    obtain ⟨next, hentry, hnext⟩ := Option.bind_eq_some_iff.mp hfind
    have hmem := Entries.mem_of_lookup hentry
    simp only [List.mem_cons, List.not_mem_nil, or_false, Prod.mk.injEq] at hmem
    rcases hmem with ⟨rfl, rfl⟩ | ⟨rfl, rfl⟩
    all_goals
      obtain ⟨rfl, rfl⟩ := FileTree.find?_file hnext
      decide
  have hroot : designs.locate .here = .ok ([], designs.tree) := rfl
  exact ⟨hwell, hvisited, halike, finds_alike hwell hroot rfl rfl hvisited halike⟩

/-- Wherever a scan starts, all patterns exclude the same files. -/
def StartsAnywhere : Prop :=
  ∀ (patterns : List String) (s : Scanner) (w : Workspace) (d d' : Path) (place : Place)
    (t inner : FileTree) (parts : List String), s.exclusions = Exclusion.ofPatterns patterns →
    w.tree.WellFormed → w.locate d = .ok (place, t) → t.isDirectory →
    w.locate d' = .ok (place ++ parts, inner) → Visited s.exclusions [] t parts →
    s.FindsAlike w d d' parts

def generated : Workspace :=
  ⟨.directory [("src", .directory [("gen", .directory [("A.ts", .file [])])])], []⟩

def generatedScanner : Scanner := { designScanner with exclusions := Exclusion.ofPatterns ["src/gen"] }

/-- A pattern spells a directory from the top, and nothing from within the first part. -/
theorem not_startsAnywhere : ¬ StartsAnywhere := by
  intro h
  have hfile : (FileTree.file []).WellFormed := .file
  have hgen : (FileTree.directory [("A.ts", .file [])]).WellFormed :=
    .directory (by decide) (by decide) (List.forall_mem_singleton.mpr hfile)
  have hsrc : (FileTree.directory [("gen", .directory [("A.ts", .file [])])]).WellFormed :=
    .directory (by decide) (by decide) (List.forall_mem_singleton.mpr hgen)
  have hwell : generated.tree.WellFormed :=
    .directory (by decide) (by decide) (List.forall_mem_singleton.mpr hsrc)
  obtain ⟨files, files', hfiles, hfiles', hsame, -⟩ :=
    h ["src/gen"] generatedScanner generated .here (.ofText "src") [] _ _ ["src"] rfl hwell rfl rfl rfl
      (.into rfl rfl (by decide) .top)
  have hnone : generatedScanner.files generated [.here] = .ok [] := by decide +kernel
  have hone : generatedScanner.files generated [.ofText "src"] = .ok [.ofText "src/gen/A.ts"] := by
    decide +kernel
  obtain rfl : [] = files := Except.ok.inj (hnone.symm.trans hfiles)
  obtain rfl : [.ofText "src/gen/A.ts"] = files' := Except.ok.inj (hone.symm.trans hfiles')
  nomatch hsame

end Scanner

end PropSchema
