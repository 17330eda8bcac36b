import PropSchema.Proofs.Entries
import PropSchema.Workspace
/-!
What changes in a tree of files: a file that is found after a change is the one that was written, or
it was there before, and what is saved at a path is read from it. A path that leads to a file leads
to its place by spelling alone.
-/
namespace PropSchema

namespace FileTree
variable {t t' node : FileTree} {place q : Place} {bytes : List UInt8} {name : String}

theorem find?_append (t : FileTree) (place rest : Place) :
    t.find? (place ++ rest) = (t.find? place).bind (find? rest) := by
  induction place generalizing t with
  | nil => rfl
  | cons name place ih =>
      rw [List.cons_append, find?, find?]
      cases t.entry? name with
      | none => rfl
      | some inner => exact ih inner

theorem find?_file (h : (file bytes).find? q = some node) : q = [] ∧ node = file bytes := by
  cases q with
  | nil => exact ⟨rfl, (Option.some.inj h).symm⟩
  | cons name q => nomatch h

theorem find?_empty (q : Place) : empty.find? q ≠ some (file bytes) := by
  intro h
  cases q with
  | nil => nomatch h
  | cons name q => nomatch h

/-- What has something in it is a directory. -/
theorem find?_parent (h : t.find? (place ++ [name]) = some node) :
    ∃ entries, t.find? place = some (directory entries) := by
  rw [find?_append] at h
  cases hplace : t.find? place with
  | none => rw [hplace] at h; nomatch h
  | some inner =>
      rw [hplace] at h
      cases inner with
      | file bytes => nomatch (find?_file h).1
      | directory entries => exact ⟨entries, rfl⟩

theorem lookup_entries (t : FileTree) (name : String) : t.entries.lookup name = t.entry? name := by
  cases t <;> rfl

theorem entry?_put (name : String) (place : Place) (other : String) :
    entry? other (t.put (name :: place) node) =
      if other = name then some (((t.entry? name).getD empty).put place node) else t.entry? other := by
  rw [put, entry?]
  by_cases h : other = name
  · rw [if_pos h, h, Entries.lookup_put_self]
  · rw [if_neg h, Entries.lookup_put_of_ne h, lookup_entries]

/-- A file in a tree with another one put into it is in the one or the other. -/
theorem file_of_put (h : (t.put place node).find? q = some (file bytes)) :
    (∃ rest, q = place ++ rest ∧ node.find? rest = some (file bytes)) ∨
      t.find? q = some (file bytes) := by
  induction place generalizing t q with
  | nil => exact .inl ⟨q, rfl, h⟩
  | cons name place ih =>
      cases q with
      | nil => nomatch h
      | cons other q =>
          rw [find?, entry?_put] at h
          by_cases hname : other = name
          · subst hname
            rw [if_pos rfl] at h
            rcases ih h with ⟨rest, rfl, hrest⟩ | h
            · exact .inl ⟨rest, rfl, hrest⟩
            · rw [find?]
              cases hentry : t.entry? other with
              | none => rw [hentry] at h; exact absurd h (find?_empty q)
              | some inner => rw [hentry] at h; exact .inr h
          · rw [if_neg hname] at h
            exact .inr h

theorem lookup_erase (name other : String) (entries : List (String × FileTree)) :
    (Entries.erase name entries).lookup other = if other = name then none else entries.lookup other := by
  rw [Entries.erase, Entries.lookup_filter fun k => !(k == name)]
  by_cases h : other = name <;> simp [h]

/-- A file that is left was there before. -/
theorem file_of_erase (h : (t.erase place).find? q = some (file bytes)) :
    t.find? q = some (file bytes) := by
  induction place generalizing t q with
  | nil => exact absurd h (find?_empty q)
  | cons name place ih =>
      cases place with
      | nil =>
          rw [erase] at h
          cases q with
          | nil => cases h
          | cons other q =>
              rw [find?, entry?, lookup_erase, lookup_entries] at h
              by_cases ho : other = name
              · rw [if_pos ho] at h; cases h
              · rw [if_neg ho] at h; exact h
      | cons next place =>
          rw [erase.eq_def] at h
          dsimp only at h
          cases hentry : t.entry? name with
          | none => rw [hentry] at h; exact h
          | some inner =>
              rw [hentry] at h
              cases q with
              | nil => cases h
              | cons other q =>
                  rw [find?]
                  rw [find?, entry?] at h
                  by_cases ho : other = name
                  · rw [ho, Entries.lookup_put_self] at h
                    rw [ho, hentry]
                    exact ih h
                  · rw [Entries.lookup_put_of_ne ho, lookup_entries] at h
                    exact h

theorem follow_append (parts rest : List String) (place : Place) :
    t.follow (parts ++ rest) place = (t.follow parts place).bind (t.follow rest) := by
  induction parts generalizing place with
  | nil => rfl
  | cons part parts ih =>
      rw [List.cons_append, follow, follow]
      split
      · rfl
      · rfl
      · split
        · exact ih _
        · rfl

/-- Following parts leads where their spelling says. -/
theorem follow_eq {parts : List String} (h : t.follow parts place = .ok q) :
    q = parts.foldl Path.step place := by
  induction parts generalizing place with
  | nil => exact (Except.ok.inj h).symm
  | cons part parts ih =>
      rw [follow] at h
      split at h
      · nomatch h
      · nomatch h
      · split at h
        · exact ih h
        · nomatch h

theorem follow_obstacle {parts : List String}
    {obstacle : Obstacle} (h : t.follow parts place = .error obstacle) : obstacle ≠ .nullByte := by
  induction parts generalizing place with
  | nil => cases h
  | cons part parts ih =>
      rw [follow] at h
      split at h
      · cases h; nofun
      · cases h; nofun
      · split at h
        · exact ih h
        · cases h; nofun

/-- Everything is still there in another tree, and directories still are directories. -/
def Keeps (t t' : FileTree) : Prop :=
  ∀ q node, t.find? q = some node →
    ∃ node', t'.find? q = some node' ∧ (node.isDirectory → node'.isDirectory)

/-- A file put where no directory is takes nothing away. -/
theorem keeps_put (hplace : (t.find? place).any isDirectory = false) :
    t.Keeps (t.put place (file bytes)) := by
  intro q
  induction place generalizing t q with
  | nil =>
      intro node h
      cases t with
      | file old =>
          obtain ⟨rfl, rfl⟩ := find?_file h
          refine ⟨file bytes, rfl, fun hdirectory => ?_⟩
          cases hdirectory
      | directory entries => cases hplace
  | cons name place ih =>
      intro node h
      cases q with
      | nil => exact ⟨_, rfl, fun _ => rfl⟩
      | cons other q =>
          rw [find?, entry?_put]
          rw [find?] at h hplace
          by_cases hname : other = name
          · subst hname
            rw [if_pos rfl]
            cases hentry : t.entry? other with
            | none => rw [hentry] at h; cases h
            | some inner => rw [hentry] at h hplace; exact ih hplace q node h
          · rw [if_neg hname]
            exact ⟨node, h, id⟩

/-- Parts lead where they led as long as nothing is taken away. -/
theorem Keeps.follow (h : t.Keeps t') {parts : List String}
    (hfollow : t.follow parts place = .ok q) : t'.follow parts place = .ok q := by
  induction parts generalizing place with
  | nil => exact hfollow
  | cons part parts ih =>
      rw [FileTree.follow] at hfollow
      cases hplace : t.find? place with
      | none => rw [hplace] at hfollow; nomatch hfollow
      | some node =>
          obtain ⟨node', hplace', hkind⟩ := h place node hplace
          rw [hplace] at hfollow
          rw [FileTree.follow, hplace']
          cases node with
          | file old => nomatch hfollow
          | directory entries =>
              cases node' with
              | file bytes => nomatch hkind rfl
              | directory entries' =>
                  dsimp only at hfollow ⊢
                  split at hfollow
                  · next hpart =>
                      rw [if_pos, ih hfollow]
                      rw [Bool.or_eq_true] at hpart ⊢
                      refine hpart.imp_right fun hsome => ?_
                      obtain ⟨inner, hinner⟩ := Option.isSome_iff_exists.mp hsome
                      obtain ⟨inner', hinner', -⟩ := h _ inner hinner
                      rw [hinner']
                      rfl
                  · nomatch hfollow

/-- One part further, from a directory to what is in it. -/
theorem follow_concat {parts : List String} {entries : List (String × FileTree)}
    (hname : name ≠ "..") (hfollow : t.follow parts place = .ok q)
    (hdir : t.find? q = some (directory entries)) (hfind : t.find? (q ++ [name]) = some node) :
    t.follow (parts ++ [name]) place = .ok (q ++ [name]) := by
  rw [follow_append, hfollow]
  change t.follow [name] q = _
  rw [FileTree.follow, hdir, hfind]
  dsimp only
  rw [if_pos (by rw [Option.isSome_some, Bool.or_true]), FileTree.follow, Path.step,
    if_neg (mt beq_iff_eq.mp hname)]

/-- Making directories adds no file. -/
theorem file_of_makeDirectories {parts : List String} {t' : FileTree}
    (h : makeDirectories parts place t = .ok t') (hq : t'.find? q = some (file bytes)) :
    t.find? q = some (file bytes) := by
  induction parts generalizing t place with
  | nil =>
      rw [makeDirectories] at h
      split at h
      · rw [Except.ok.inj h]; exact hq
      · nomatch h
  | cons part parts ih =>
      rw [makeDirectories] at h
      split at h
      · nomatch h
      · nomatch h
      · split at h
        · exact ih h
        · rcases file_of_put (ih h) with ⟨rest, -, hrest⟩ | hfound
          · exact absurd hrest (find?_empty rest)
          · exact hfound

/-- A directory that is made where nothing was takes no file away. -/
theorem file_put_empty {entries : List (String × FileTree)}
    (hdir : t.find? place = some (directory entries)) (hnone : t.find? (place ++ [name]) = none)
    (hq : t.find? q = some (file bytes)) :
    (t.put (place ++ [name]) empty).find? q = some (file bytes) := by
  induction place generalizing t q with
  | nil =>
      obtain rfl : t = directory entries := Option.some.inj hdir
      cases q with
      | nil => cases hq
      | cons other q =>
          have hentry : FileTree.entry? name (directory entries) = none := by
            rw [List.nil_append, find?] at hnone
            cases hentry : FileTree.entry? name (directory entries) with
            | none => rfl
            | some inner => rw [hentry] at hnone; cases hnone
          rw [find?] at hq
          rw [List.nil_append, find?, entry?_put]
          by_cases hother : other = name
          · rw [hother, hentry] at hq
            cases hq
          · rw [if_neg hother]
            exact hq
  | cons first place ih =>
      cases q with
      | nil =>
          obtain rfl : t = file bytes := Option.some.inj hq
          cases hdir
      | cons other q =>
          rw [find?] at hq hdir
          rw [List.cons_append, find?] at hnone
          rw [List.cons_append, find?, entry?_put]
          by_cases hother : other = first
          · subst hother
            rw [if_pos rfl]
            cases hentry : t.entry? other with
            | none => rw [hentry] at hq; cases hq
            | some inner =>
                rw [hentry] at hq hdir hnone
                exact ih hdir hnone hq
          · rw [if_neg hother]
            exact hq

/-- Making directories takes no file away. -/
theorem file_makeDirectories {parts : List String} {t' : FileTree}
    (h : makeDirectories parts place t = .ok t') (hq : t.find? q = some (file bytes)) :
    t'.find? q = some (file bytes) := by
  induction parts generalizing t place with
  | nil =>
      rw [makeDirectories] at h
      split at h
      · rw [← Except.ok.inj h]; exact hq
      · nomatch h
  | cons part parts ih =>
      rw [makeDirectories] at h
      split at h
      · nomatch h
      · nomatch h
      · next entries hdir =>
          split at h
          · exact ih h hq
          · next hpart =>
              refine ih h (file_put_empty hdir ?_ hq)
              rw [Bool.or_eq_true, not_or] at hpart
              exact Option.not_isSome_iff_eq_none.mp hpart.2

end FileTree

/-- One part more is one step more. -/
theorem Path.resolve_concat (workDir : Place) (p : Path) (parts : List String) (name : String) :
    ({ p with parts := parts ++ [name] } : Path).resolve workDir =
      step (({ p with parts } : Path).resolve workDir) name := by
  rw [resolve, List.foldl_concat]
  rfl

/-- A path has no null byte if the path to its directory and its last part have none. -/
theorem Path.hasNull_concat (root : String) (parts : List String) (name : String) :
    (⟨root, parts ++ [name]⟩ : Path).hasNull =
      ((⟨root, parts⟩ : Path).hasNull || name.toList.contains '\x00') := by
  simp only [hasNull, List.any_append, List.any_cons, List.any_nil, Bool.or_false]

namespace Workspace
variable {w w' : Workspace} {p : Path} {bytes other : List UInt8} {place : Place}
open FileTree (file directory)

theorem hasNull_of_locate {t : FileTree} (h : w.locate p = .ok (place, t)) : p.hasNull = false := by
  rw [locate] at h
  split at h
  · cases h
  · next hnull => exact eq_false_of_ne_true hnull

theorem locate_eq {t : FileTree} (h : w.locate p = .ok (place, t)) :
    w.tree.follow p.parts (w.start p) = .ok place ∧ w.tree.find? place = some t := by
  rw [locate, if_neg (by rw [hasNull_of_locate h]; exact Bool.false_ne_true)] at h
  cases hfollow : w.tree.follow p.parts (w.start p) with
  | error obstacle => rw [hfollow] at h; cases h
  | ok reached =>
      rw [hfollow] at h
      dsimp only [bind, Except.bind] at h
      cases hfind : w.tree.find? reached with
      | none => rw [hfind] at h; cases h
      | some inner =>
          rw [hfind] at h
          cases h
          exact ⟨rfl, hfind⟩

theorem locate_of_follow {t : FileTree} (hnull : p.hasNull = false)
    (hfollow : w.tree.follow p.parts (w.start p) = .ok place)
    (hfind : w.tree.find? place = some t) : w.locate p = .ok (place, t) := by
  rw [locate, if_neg (by rw [hnull]; exact Bool.false_ne_true), hfollow]
  dsimp only [bind, Except.bind]
  rw [hfind]
  rfl

theorem place_of_locate {t : FileTree} (h : w.locate p = .ok (place, t)) : place = w.resolve p :=
  FileTree.follow_eq (locate_eq h).1

theorem locate_nullByte (h : p.hasNull = true) : w.locate p = .error .nullByte := by
  rw [locate, if_pos h]

theorem read_nullByte (h : p.hasNull = true) : w.read p = .error ⟨.nullByte, p⟩ := by
  rw [read, locate_nullByte h]

/-- Without a null byte in its path, a file is not refused for one. -/
theorem obstacle_of_read (hnull : p.hasNull = false) {e : FileError} (h : w.read p = .error e) :
    e.obstacle ≠ .nullByte := by
  rw [read] at h
  split at h
  · cases h
  · cases h; nofun
  · next obstacle hlocate =>
      cases h
      rw [locate, if_neg (by rw [hnull]; exact Bool.false_ne_true)] at hlocate
      cases hfollow : w.tree.follow p.parts (w.start p) with
      | error found =>
          rw [hfollow] at hlocate
          cases hlocate
          exact FileTree.follow_obstacle hfollow
      | ok place =>
          rw [hfollow] at hlocate
          dsimp only [bind, Except.bind] at hlocate
          split at hlocate <;> cases hlocate
          nofun

/-- What is read is the file at the place of the path. -/
theorem find?_of_read (h : w.read p = .ok bytes) :
    w.tree.find? (w.resolve p) = some (file bytes) := by
  rw [read] at h
  split at h
  · next hlocate =>
      cases h
      rw [← place_of_locate hlocate]
      exact (locate_eq hlocate).2
  · nomatch h
  · nomatch h

/-- From a directory, double dots lead to a directory. -/
theorem locate_up {parts : List String} {entries : List (String × FileTree)}
    (h : w.locate { p with parts } = .ok (place, directory entries)) :
    ∃ place entries, w.locate { p with parts := parts ++ [".."] } = .ok (place, directory entries) := by
  obtain ⟨hfollow, hfind⟩ := locate_eq h
  have hup : w.tree.follow (parts ++ [".."]) (w.start p) = .ok place.dropLast := by
    rw [FileTree.follow_append]
    rw [show w.tree.follow parts (w.start p) = .ok place from hfollow]
    change w.tree.follow [".."] place = _
    rw [FileTree.follow, hfind]
    rfl
  obtain ⟨above, habove⟩ : ∃ above, w.tree.find? place.dropLast = some (directory above) := by
    rcases List.eq_nil_or_concat place with rfl | ⟨front, name, rfl⟩
    · exact ⟨entries, hfind⟩
    · rw [List.concat_eq_append] at hfind
      rw [List.concat_eq_append, List.dropLast_concat]
      exact FileTree.find?_parent hfind
  have hnull : ({ p with parts := parts ++ [".."] } : Path).hasNull = false := by
    rw [Path.hasNull_concat, hasNull_of_locate h]
    rfl
  exact ⟨place.dropLast, above, locate_of_follow hnull hup habove⟩

theorem hasNull_of_write (h : w.write p bytes = .ok w') : p.hasNull = false := by
  rw [write] at h
  split at h
  · cases h
  · next hnull => exact eq_false_of_ne_true hnull

/-- A write puts the file where the path then leads. -/
theorem exists_of_write (h : w.write p bytes = .ok w') :
    ∃ place, w' = { w with tree := w.tree.put place (file bytes) } ∧
      w'.tree.follow p.parts (w.start p) = .ok place := by
  have hnull := hasNull_of_write h
  rw [write, if_neg (by rw [hnull]; exact Bool.false_ne_true)] at h
  split at h
  · nomatch h
  · nomatch h
  · nomatch h
  · next hlocate =>
      cases h
      obtain ⟨hfollow, hfind⟩ := locate_eq hlocate
      exact ⟨_, rfl, (FileTree.keeps_put (by rw [hfind]; rfl)).follow hfollow⟩
  · next above entries _ hparent hmissing =>
      split at h
      · next name hlast =>
          cases h
          obtain ⟨front, hfront⟩ := List.getLast?_eq_some_iff.mp hlast
          obtain ⟨root, parts⟩ := p
          obtain rfl : parts = front ++ [name] := hfront
          have hfront : (⟨root, front ++ [name]⟩ : Path).parent = ⟨root, front⟩ := by
            rw [Path.parent, List.dropLast_concat]
          rw [hfront] at hparent
          obtain ⟨hfollow, hfind⟩ := locate_eq hparent
          -- double dots would have led to a directory
          have hname : name ≠ ".." := by
            rintro rfl
            obtain ⟨place, entries, hup⟩ := locate_up (p := ⟨root, front⟩) hparent
            rw [hup] at hmissing
            nomatch hmissing
          have hnone : w.tree.find? (above ++ [name]) = none := by
            cases hinner : w.tree.find? (above ++ [name]) with
            | none => rfl
            | some inner =>
                have hall := FileTree.follow_concat hname hfollow hfind hinner
                rw [locate_of_follow (p := ⟨root, front ++ [name]⟩) hnull hall hinner] at hmissing
                nomatch hmissing
          have hkeeps : w.tree.Keeps (w.tree.put (above ++ [name]) (file bytes)) :=
            FileTree.keeps_put (by rw [hnone]; rfl)
          obtain ⟨node, hnode, hkind⟩ := hkeeps above _ hfind
          cases node with
          | file old => nomatch hkind rfl
          | directory entries' =>
              exact ⟨above ++ [name], rfl, FileTree.follow_concat hname (hkeeps.follow hfollow)
                hnode (FileTree.find?_put_self _ _ _)⟩
      · nomatch h

/-- What is written is what is read. -/
theorem read_of_write (h : w.write p bytes = .ok w') : w'.read p = .ok bytes := by
  have hnull := hasNull_of_write h
  obtain ⟨place, rfl, hfollow⟩ := exists_of_write h
  rw [read, locate_of_follow hnull hfollow (FileTree.find?_put_self _ _ _)]

/-- The files of two workspaces are the same, whatever directories there are. -/
def SameFiles (w w' : Workspace) : Prop :=
  ∀ q bytes, w'.tree.find? q = some (file bytes) ↔ w.tree.find? q = some (file bytes)

theorem SameFiles.refl (w : Workspace) : w.SameFiles w := fun _ _ => .rfl

theorem exists_of_makeDirectories (h : w.makeDirectories p = .ok w') :
    ∃ tree, w.tree.makeDirectories p.parts (w.start p) = .ok tree ∧ w' = { w with tree } := by
  rw [makeDirectories] at h
  split at h
  · cases h
  · split at h
    · next tree hmade => exact ⟨tree, hmade, (Except.ok.inj h).symm⟩
    · cases h

theorem sameFiles_of_makeDirectories (h : w.makeDirectories p = .ok w') : w.SameFiles w' := by
  obtain ⟨tree, hmade, rfl⟩ := exists_of_makeDirectories h
  exact fun _ _ => ⟨FileTree.file_of_makeDirectories hmade, FileTree.file_makeDirectories hmade⟩

/-- What is saved is what is read. -/
theorem read_of_save (h : w.save p bytes = .ok w') : w'.read p = .ok bytes := by
  rw [save] at h
  cases hmade : w.makeDirectories p.parent with
  | error e => rw [hmade] at h; nomatch h
  | ok made =>
      rw [hmade] at h
      exact read_of_write h

/-- A file after a write is the written one at the place of the path, or was there before. -/
theorem file_of_write (h : w.write p bytes = .ok w') {q : Place}
    (hq : w'.tree.find? q = some (file other)) :
    q = w.resolve p ∧ other = bytes ∨ w.tree.find? q = some (file other) := by
  obtain ⟨place, rfl, hfollow⟩ := exists_of_write h
  have hplace : place = w.resolve p := FileTree.follow_eq hfollow
  rcases FileTree.file_of_put hq with ⟨rest, rfl, hrest⟩ | hfound
  · obtain ⟨rfl, hother⟩ := FileTree.find?_file hrest
    exact .inl ⟨by rw [List.append_nil, hplace], FileTree.file.inj hother⟩
  · exact .inr hfound

theorem file_of_save (h : w.save p bytes = .ok w') {q : Place}
    (hq : w'.tree.find? q = some (file other)) :
    q = w.resolve p ∧ other = bytes ∨ w.tree.find? q = some (file other) := by
  rw [save] at h
  cases hmade : w.makeDirectories p.parent with
  | error e => rw [hmade] at h; nomatch h
  | ok made =>
      rw [hmade] at h
      obtain ⟨tree, -, rfl⟩ := exists_of_makeDirectories hmade
      rcases file_of_write (w := { w with tree }) h hq with hnew | hold
      · exact .inl hnew
      · exact .inr ((sameFiles_of_makeDirectories hmade q other).mp hold)

theorem file_of_delete {q : Place} (hq : (w.delete p).tree.find? q = some (file other)) :
    w.tree.find? q = some (file other) := by
  rw [delete] at hq
  split at hq
  · exact FileTree.file_of_erase hq
  · exact hq

end Workspace

end PropSchema
