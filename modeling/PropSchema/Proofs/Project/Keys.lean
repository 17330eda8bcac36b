import PropSchema.Project
import PropSchema.Proofs.FileTree.Sources
/-!
Keys of files. The dialect of a file depends on its name only, and the key under which a file is
cached still tells the name: two paths with one key are read in one dialect. The key also leads back
to the place of the file.
-/
namespace PropSchema
open TypeScript (hasMarkup)

/-- Characters in front of a name: none, or some that end in a slash. -/
def EndsName (before : List Char) : Prop := before = [] ∨ ∃ front, before = front ++ ['/']

theorem EndsName.append {before after : List Char} (h : EndsName before) (h' : EndsName after) :
    EndsName (before ++ after) := by
  rcases h' with rfl | ⟨front, rfl⟩
  · rwa [List.append_nil]
  · exact .inr ⟨before ++ front, (List.append_assoc ..).symm⟩

/-- The dialect depends on what follows the last slash. -/
theorem hasMarkup_of_endsName {path : String} {before : List Char} {name : String}
    (h : EndsName before) (hpath : path.toList = before ++ name.toList) :
    hasMarkup path = hasMarkup name := by
  rcases h with rfl | ⟨front, rfl⟩
  · rw [String.toList_inj.mp hpath]
  · rw [hasMarkup, hasMarkup, hpath, List.append_assoc, List.map_append, List.map_append,
      List.reverse_append, List.reverse_append]
    -- the slash is among the last four characters only if the name is shorter
    rcases (name.toList.map Char.toLower).reverse with _ | ⟨a, _ | ⟨b, _ | ⟨c, _ | ⟨d, rest⟩⟩⟩⟩
    all_goals simp

namespace Path

theorem exists_intercalate (front : List String) (name : String) :
    ∃ before, EndsName before ∧
      ("/".intercalate (front ++ [name])).toList = before ++ name.toList := by
  rw [String.toList_intercalate]
  induction front with
  | nil => exact ⟨[], .inl rfl, by simp [List.intercalate]⟩
  | cons part front ih =>
      obtain ⟨before, hbefore, heq⟩ := ih
      refine ⟨part.toList ++ '/' :: before, ?_, ?_⟩
      · rcases hbefore with rfl | ⟨front, rfl⟩
        · exact .inr ⟨part.toList, rfl⟩
        · exact .inr ⟨part.toList ++ '/' :: front, by simp⟩
      · obtain ⟨next, more, hmore⟩ :
            ∃ next more, (front ++ [name]).map String.toList = next :: more :=
          List.exists_cons_of_ne_nil (by simp)
        rw [List.cons_append, List.map_cons, hmore, List.intercalate, List.intersperse_cons_cons]
        rw [hmore, List.intercalate] at heq
        rw [List.flatten_cons, List.flatten_cons, heq]
        simp

/-- A path that leads to a name: its last part, which is no dots. -/
structure Names (p : Path) (name : String) : Prop where
  root : p.root = "" ∨ p.root = "/" ∨ p.root = "//"
  parts : ∃ front, p.parts = front ++ [name]
  noDot : name ≠ "."
  noDots : name ≠ ".."

theorem Names.hasMarkup_text {p : Path} {name : String} (h : p.Names name) :
    p.text ≠ "." ∧ hasMarkup p.text = hasMarkup name := by
  obtain ⟨front, hparts⟩ := h.parts
  obtain ⟨before, hbefore, heq⟩ := exists_intercalate front name
  have hroot : EndsName p.root.toList := by
    rcases h.root with hroot | hroot | hroot
    · exact .inl (by rw [hroot]; rfl)
    · exact .inr ⟨[], by rw [hroot]; rfl⟩
    · exact .inr ⟨['/'], by rw [hroot]; rfl⟩
  have htext : p.text.toList = (p.root.toList ++ before) ++ name.toList := by
    rw [text, hparts, if_neg (by simp), String.toList_append, heq, List.append_assoc]
  refine ⟨fun hdot => ?_, hasMarkup_of_endsName (hroot.append hbefore) htext⟩
  have hchars : ['.'] = (p.root.toList ++ before) ++ name.toList := by
    rw [← htext, hdot]
    rfl
  rcases hroot.append hbefore with hnil | ⟨front, hslash⟩
  · rw [hnil, List.nil_append] at hchars
    exact h.noDot (String.toList_inj.mp hchars.symm)
  · have hmem : '/' ∈ ['.'] := by rw [hchars, hslash]; simp
    exact absurd hmem (by decide)

theorem below?_eq_some {names parts rest : List String} (h : below? names parts = some rest) :
    parts = names ++ rest := by
  induction names generalizing parts with
  | nil => exact (Option.some.inj h)
  | cons name names ih =>
      cases parts with
      | nil => nomatch h
      | cons part parts =>
          rw [below?] at h
          split at h
          · next heq => rw [ih h, beq_iff_eq.mp heq, List.cons_append]
          · nomatch h

/-- The dialect of the file that a key stands for. -/
def markupOf (root : Place) (key : String) : Bool :=
  if key = "." then hasMarkup (root.getLastD "") else hasMarkup key

/-- The key of a place tells the dialect of its name. -/
theorem markupOf_shown (root : Place) {place : Place} {name : String} (noDot : name ≠ ".")
    (noDots : name ≠ "..") (h : ∃ front, place = front ++ [name]) :
    markupOf root (shown root place) = hasMarkup name := by
  have hnamed : ∀ p : Path, p.Names name → markupOf root p.text = hasMarkup name := by
    intro p hp
    obtain ⟨hdot, hmarkup⟩ := hp.hasMarkup_text
    rw [markupOf, if_neg hdot, hmarkup]
  rw [shown]
  split
  · next parts hparts =>
      obtain ⟨front, hfront⟩ := h
      rcases List.eq_nil_or_concat parts with rfl | ⟨init, last, rfl⟩
      · have hroot : root = front ++ [name] := by
          rw [← hfront, below?_eq_some hparts, List.append_nil]
        rw [hroot]
        change markupOf (front ++ [name]) "." = _
        rw [markupOf, if_pos rfl, List.getLastD_concat]
      · rw [List.concat_eq_append] at hparts ⊢
        have hlast : front ++ [name] = (root ++ init) ++ [last] := by
          rw [← hfront, below?_eq_some hparts, List.append_assoc]
        have hname : name = last := (List.append_inj' hlast rfl).2 |> List.singleton_inj.mp
        exact hnamed _ ⟨.inl rfl, ⟨init, by rw [hname]⟩, noDot, noDots⟩
  · exact hnamed _ ⟨.inr (.inl rfl), h, noDot, noDots⟩

theorem Names.resolve {p : Path} {name : String} (h : p.Names name) (workDir : Place) :
    ∃ front, p.resolve workDir = front ++ [name] := by
  obtain ⟨front, hfront⟩ := h.parts
  have hp : p = { p with parts := front ++ [name] } := by rw [← hfront]
  rw [hp, resolve_concat, step, if_neg (by simpa using h.noDots)]
  exact ⟨_, rfl⟩

theorem root_ofText (text : String) :
    (ofText text).root = "" ∨ (ofText text).root = "/" ∨ (ofText text).root = "//" := by
  change rootOf text.toList = _ ∨ rootOf text.toList = _ ∨ rootOf text.toList = _
  rw [rootOf]
  split
  · exact .inl rfl
  · exact .inr (.inr rfl)
  · exact .inr (.inl rfl)

theorem ne_dot_of_mem_ofText (text : String) {part : String} (h : part ∈ (ofText text).parts) :
    part ≠ "." := by
  rintro rfl
  obtain ⟨piece, hpiece, heq⟩ := List.mem_map.mp h
  have hdot : piece = ['.'] := by
    rw [← String.toList_ofList (l := piece), heq]
    rfl
  rw [List.mem_filter, hdot] at hpiece
  exact absurd hpiece.2 (by decide)

end Path

namespace Workspace
variable {w : Workspace} {bytes : List UInt8}

theorem find?_workDir (h : w.isDirectory .here) :
    ∃ entries, w.tree.find? w.workDir = some (.directory entries) := by
  rw [isDirectory] at h
  split at h
  · next place t hlocate =>
      obtain ⟨hfollow, hfind⟩ := locate_eq hlocate
      cases t with
      | file bytes => nomatch h
      | directory entries =>
          obtain rfl : w.workDir = place := Except.ok.inj hfollow
          exact ⟨entries, hfind⟩
  · nomatch h

theorem isDirectory_top {place : Place} {entries : List (String × FileTree)} {t : FileTree}
    (h : t.find? place = some (.directory entries)) : ∃ entries, t = .directory entries := by
  cases t with
  | file bytes => nomatch (FileTree.find?_file h).2
  | directory entries => exact ⟨entries, rfl⟩

/-- A path that is read leads to a name. -/
theorem names_of_locate (hdir : w.isDirectory .here) {text : String} {place : Place}
    (h : w.locate (.ofText text) = .ok (place, .file bytes)) :
    ∃ name, (Path.ofText text).Names name := by
  obtain ⟨hfollow, hfind⟩ := locate_eq h
  obtain ⟨entries, hwork⟩ := find?_workDir hdir
  rcases List.eq_nil_or_concat (Path.ofText text).parts with hnil | ⟨front, name, hparts⟩
  · -- no part leads from a directory to a file
    rw [hnil] at hfollow
    obtain rfl : w.start (.ofText text) = place := Except.ok.inj hfollow
    rw [start] at hfind
    split at hfind
    · rw [hwork] at hfind
      cases hfind
    · obtain ⟨top, htop⟩ := isDirectory_top hwork
      rw [htop] at hfind
      cases hfind
  · rw [List.concat_eq_append] at hparts
    refine ⟨name, Path.root_ofText text, ⟨front, hparts⟩, Path.ne_dot_of_mem_ofText text
      (by rw [hparts]; simp), ?_⟩
    rintro rfl
    rw [hparts, FileTree.follow_append] at hfollow
    cases hfront : w.tree.follow front (w.start (.ofText text)) with
    | error obstacle => rw [hfront] at hfollow; cases hfollow
    | ok before =>
        rw [hfront] at hfollow
        change w.tree.follow [".."] before = .ok place at hfollow
        rw [FileTree.follow] at hfollow
        split at hfollow
        · cases hfollow
        · cases hfollow
        · next entries hbefore =>
            have hnull : ({ Path.ofText text with parts := front } : Path).hasNull = false := by
              have hwhole := hasNull_of_locate h
              rw [Path.hasNull, hparts, List.any_append] at hwhole
              exact (Bool.or_eq_false_iff.mp hwhole).1
            have hlocate : w.locate { Path.ofText text with parts := front } =
                .ok (before, .directory entries) := locate_of_follow hnull hfront hbefore
            obtain ⟨_, _, hup⟩ := locate_up hlocate
            have hsame : ({ Path.ofText text with parts := front ++ [".."] } : Path) = .ofText text := by
              rw [← hparts]
            change w.locate { Path.ofText text with parts := front ++ [".."] } = _ at hup
            rw [hsame, h] at hup
            cases hup

end Workspace

namespace FileTree

theorem not_isSourceName : isSourceName "." = false ∧ isSourceName ".." = false := by decide

/-- Every source that is found has the name of a source. -/
theorem exists_name_of_mem_sources {rules : List Exclusion} {t : FileTree} {parts : List String}
    (h : parts ∈ sources rules t) : ∃ front name, parts = front ++ [name] ∧ isSourceName name := by
  have hboth := sourcesBelow.mutual_induct rules
    (fun above t => parts ∈ sourcesBelow rules above t →
      ∃ front name, parts = front ++ [name] ∧ isSourceName name)
    (fun above entries => ∀ y ∈ yieldsBelow rules above entries, parts ∈ y.files →
      ∃ front name, parts = front ++ [name] ∧ isSourceName name)
  refine (hboth ?_ ?_ ?_ ?_).1 [] t h
  · intro above bytes h
    rw [sourcesBelow] at h
    cases h
  · intro above entries ih h
    rw [sourcesBelow] at h
    obtain ⟨y, hy, hparts⟩ := mem_ordered.mp h
    exact ih y hy hparts
  · intro above y hy
    rw [yieldsBelow] at hy
    cases hy
  · intro above name t rest _ ihtree ihrest y hy hparts
    rw [yieldsBelow] at hy
    rcases List.mem_cons.mp hy with rfl | hy
    · dsimp only at hparts
      split at hparts
      · split at hparts
        · exact ihtree hparts
        · cases hparts
      · split at hparts
        · next hwanted =>
            rw [wantsFile, Bool.and_eq_true] at hwanted
            exact ⟨above, name, List.mem_singleton.mp hparts, hwanted.1⟩
        · cases hparts
    · exact ihrest y hy hparts

end FileTree

namespace Scanner
variable {s : Scanner} {w : Workspace}

/-- A file is read in the dialect that its key tells. -/
def ReadsByKey (s : Scanner) (w : Workspace) (p : Path) : Prop :=
  hasMarkup p.text = Path.markupOf s.root (s.key w p)

theorem readsByKey_of_names {p : Path} {name : String} (h : p.Names name) : s.ReadsByKey w p := by
  rw [ReadsByKey, h.hasMarkup_text.2, key, Workspace.resolve,
    Path.markupOf_shown s.root h.noDot h.noDots (h.resolve w.workDir)]

/-- All files of a path that is spelled out are read in the dialects that their keys tell. -/
theorem readsByKey_of_filesOf (hdir : w.isDirectory .here) {text : String} {files : List Path}
    (h : s.filesOf w (.ofText text) = .ok files) {p : Path} (hp : p ∈ files) :
    s.ReadsByKey w p := by
  rw [filesOf] at h
  split at h
  · cases h
    obtain ⟨parts, hparts, rfl⟩ := List.mem_map.mp hp
    obtain ⟨front, name, rfl, hname⟩ := FileTree.exists_name_of_mem_sources hparts
    refine readsByKey_of_names (show Path.Names _ name from ⟨Path.root_ofText text,
      ⟨(Path.ofText text).parts ++ front, (List.append_assoc ..).symm⟩, ?_, ?_⟩)
    · rintro rfl
      rw [FileTree.not_isSourceName.1] at hname
      nomatch hname
    · rintro rfl
      rw [FileTree.not_isSourceName.2] at hname
      nomatch hname
  · next hlocate =>
      cases h
      rw [List.mem_singleton.mp hp]
      obtain ⟨name, hname⟩ := w.names_of_locate hdir hlocate
      exact readsByKey_of_names hname
  · nomatch h

end Scanner

/-- Names as files have them. -/
structure IsName (name : String) : Prop where
  nonempty : name ≠ ""
  noDot : name ≠ "."
  noDots : name ≠ ".."
  noSlash : '/' ∉ name.toList
  noNull : '\x00' ∉ name.toList

namespace Path

/-- What is left of the pieces of a text. -/
def partsOf (pieces : List (List Char)) : List String :=
  (pieces.filter fun part => !part.isEmpty && part != ['.']).map String.ofList

theorem partsOf_split {parts : List String} (h : ∀ name ∈ parts, IsName name) :
    partsOf (Text.split '/' ("/".intercalate parts).toList) = parts := by
  by_cases hnil : parts = []
  · subst hnil
    decide
  rw [Text.split_intercalate hnil]
  clear hnil
  induction parts with
  | nil => rfl
  | cons name parts ih =>
      rw [List.forall_mem_cons] at h
      have hkeep : (!name.toList.isEmpty && name.toList != ['.']) = true := by
        have hempty : name.toList ≠ [] := fun heq => h.1.nonempty (String.toList_inj.mp heq)
        have hdot : name.toList ≠ ['.'] := fun heq => h.1.noDot (String.toList_inj.mp heq)
        simp [hempty, hdot]
      have hcons : ∀ pieces, partsOf (name.toList :: pieces) = name :: partsOf pieces := by
        intro pieces
        rw [partsOf, List.filter_cons, if_pos hkeep, List.map_cons, String.ofList_toList, partsOf]
      rw [List.flatMap_cons, Text.split_of_notMem h.1.noSlash, List.singleton_append, hcons,
        ih h.2]

/-- No slash stands in front of names that are joined. -/
theorem head_intercalate {parts : List String} (h : ∀ name ∈ parts, IsName name) (rest : List Char) :
    ("/".intercalate parts).toList ≠ '/' :: rest := by
  rw [String.toList_intercalate]
  cases parts with
  | nil => simp
  | cons name parts =>
      obtain ⟨c, more, hname⟩ : ∃ c more, name.toList = c :: more :=
        List.exists_cons_of_ne_nil fun heq => (h name List.mem_cons_self).nonempty
          (String.toList_inj.mp heq)
      have hc : c ≠ '/' := by
        rintro rfl
        exact (h name List.mem_cons_self).noSlash (hname ▸ List.mem_cons_self)
      intro heq
      apply hc
      cases parts with
      | nil =>
        simp [hname] at heq
        exact heq.1
      | cons next parts =>
        simp [List.intercalate, hname] at heq
        exact heq.1

theorem ofText_relative {parts : List String} (h : ∀ name ∈ parts, IsName name) :
    ofText (text ⟨"", parts⟩) = ⟨"", parts⟩ := by
  by_cases hnil : parts = []
  · subst hnil
    decide
  · have htext : text ⟨"", parts⟩ = "/".intercalate parts := by
      simp [text, hnil]
    have hroot : rootOf ("/".intercalate parts).toList = "" := by
      cases hcs : ("/".intercalate parts).toList with
      | nil => rfl
      | cons c rest =>
          have hc : c ≠ '/' := by
            rintro rfl
            exact head_intercalate h rest hcs
          simp [rootOf, hc]
    rw [htext, ofText, hroot]
    exact congrArg (Path.mk "") (partsOf_split h)

theorem ofText_absolute {parts : List String} (h : ∀ name ∈ parts, IsName name) :
    ofText (text ⟨"/", parts⟩) = ⟨"/", parts⟩ := by
  have htext : (text ⟨"/", parts⟩).toList = '/' :: ("/".intercalate parts).toList := by
    simp [text]
  have hroot : rootOf ('/' :: ("/".intercalate parts).toList) = "/" := by
    cases hcs : ("/".intercalate parts).toList with
    | nil => rfl
    | cons c rest =>
        have hc : c ≠ '/' := by
          rintro rfl
          exact head_intercalate h rest hcs
        simp [rootOf, hc]
  rw [ofText, htext, hroot]
  have hsplit : Text.split '/' ('/' :: ("/".intercalate parts).toList) =
      [] :: Text.split '/' ("/".intercalate parts).toList := by
    simp [Text.split]
  rw [hsplit]
  exact congrArg (Path.mk "/") (partsOf_split h)

theorem hasNull_ofPlace {place : Place} (h : ∀ name ∈ place, IsName name) :
    (ofPlace place).hasNull = false := by
  refine List.any_eq_false.mpr fun name hname => ?_
  rw [List.contains_iff_mem]
  exact (h name hname).noNull

/-- The key of a place leads back to it. -/
theorem join_shown (root : Place) {place : Place} (h : ∀ name ∈ place, IsName name) :
    (ofPlace root).join (.ofText (shown root place)) = ofPlace place := by
  rw [shown]
  split
  · next parts hparts =>
      obtain rfl := below?_eq_some hparts
      rw [ofText_relative fun name hname => h name (List.mem_append_right root hname)]
      rfl
  · have habsolute : ofText (text (ofPlace place)) = ofPlace place := ofText_absolute h
    rw [habsolute]
    rfl

end Path

namespace Workspace
variable {w : Workspace}

/-- From the top, names lead to what is at their place. -/
theorem locate_ofPlace {place : Place} {node : FileTree} (hnames : ∀ name ∈ place, IsName name)
    (hfind : w.tree.find? place = some node) : w.locate (.ofPlace place) = .ok (place, node) := by
  refine locate_of_follow (Path.hasNull_ofPlace hnames) ?_ hfind
  change w.tree.follow place [] = .ok place
  have h : ".." ∉ place := fun hmem => (hnames _ hmem).noDots rfl
  clear hnames
  induction place using List.reverseRecOn generalizing node with
  | nil => rfl
  | append_singleton front name ih =>
      obtain ⟨entries, hfront⟩ := FileTree.find?_parent hfind
      rw [List.mem_append, List.mem_singleton, not_or] at h
      exact FileTree.follow_concat (Ne.symm h.2) (ih hfront h.1) hfront hfind

theorem isFile_ofPlace {place : Place} (h : ∀ name ∈ place, IsName name) :
    w.isFile (.ofPlace place) ↔ ∃ bytes, w.tree.find? place = some (.file bytes) := by
  constructor
  · intro hfile
    rw [isFile] at hfile
    split at hfile
    · next q node hlocate =>
        obtain ⟨hfollow, hfind⟩ := locate_eq hlocate
        cases node with
        | directory entries => cases hfile
        | file bytes =>
            have hdots : ".." ∉ place := fun hmem => (h _ hmem).noDots rfl
            have hq : q = place :=
              (FileTree.follow_eq hfollow).trans (Path.foldl_step_of_noDots hdots [])
            exact ⟨bytes, hq ▸ hfind⟩
    · cases hfile
  · rintro ⟨bytes, hfind⟩
    rw [isFile, locate_ofPlace h hfind]
    rfl
end Workspace

end PropSchema
