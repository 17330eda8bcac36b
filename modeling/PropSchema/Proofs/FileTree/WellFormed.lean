import PropSchema.Proofs.FileTree
/-!
Trees as they are on a disk: a directory has no name twice, and none of its entries is called as the
directory above it. Saving and deleting files keeps a tree so.
-/
namespace PropSchema

namespace FileTree
variable {t inner : FileTree} {parts : List String} {q : Place} {name : String}

/-- The names in each directory differ, and none of them is double dots. -/
inductive WellFormed : FileTree → Prop
  | file {bytes : List UInt8} : (file bytes).WellFormed
  | directory {entries : List (String × FileTree)} (nodup : (Entries.keys entries).Nodup)
      (noDots : ".." ∉ Entries.keys entries) (within : ∀ entry ∈ entries, entry.2.WellFormed) :
      (directory entries).WellFormed

namespace WellFormed

theorem of_entries (h : t.WellFormed) : (Entries.keys t.entries).Nodup ∧
    ".." ∉ Entries.keys t.entries ∧ ∀ entry ∈ t.entries, entry.2.WellFormed := by
  cases h with
  | file => exact ⟨List.nodup_nil, List.not_mem_nil, nofun⟩
  | directory nodup noDots within => exact ⟨nodup, noDots, within⟩

/-- What is found in a tree is well-formed too, and no double dots lead there. -/
theorem find? (h : t.WellFormed) (hfind : t.find? q = some inner) :
    inner.WellFormed ∧ ".." ∉ q := by
  induction q generalizing t with
  | nil => exact Option.some.inj hfind ▸ ⟨h, List.not_mem_nil⟩
  | cons name q ih =>
      obtain ⟨-, noDots, hentries⟩ := h.of_entries
      rw [FileTree.find?] at hfind
      obtain ⟨next, hentry, hnext⟩ := Option.bind_eq_some_iff.mp hfind
      rw [← lookup_entries] at hentry
      have hmem := Entries.mem_of_lookup hentry
      obtain ⟨hwell, hq⟩ := ih (hentries _ hmem) hnext
      refine ⟨hwell, fun hdots => ?_⟩
      rcases List.mem_cons.mp hdots with rfl | hdots
      · exact noDots (List.mem_map.mpr ⟨_, hmem, rfl⟩)
      · exact hq hdots

theorem put_entry (h : t.WellFormed) (hname : name ≠ "..") (hinner : inner.WellFormed) :
    (FileTree.directory (Entries.put name inner t.entries)).WellFormed := by
  obtain ⟨nodup, noDots, hentries⟩ := h.of_entries
  have hmem : ∀ entry ∈ Entries.put name inner t.entries, entry.1 ≠ ".." ∧ entry.2.WellFormed := by
    intro entry hentry
    rcases Entries.mem_put hentry with rfl | hentry
    · exact ⟨hname, hinner⟩
    · exact ⟨fun heq => noDots (List.mem_map.mpr ⟨_, hentry, heq⟩), hentries _ hentry⟩
  refine .directory (Entries.nodup_put nodup _ _) (fun hdots => ?_) fun entry hentry =>
    (hmem entry hentry).2
  obtain ⟨entry, hentry, heq⟩ := List.mem_map.mp hdots
  exact (hmem entry hentry).1 heq

theorem empty : FileTree.empty.WellFormed := .directory List.nodup_nil List.not_mem_nil nofun

theorem put (h : t.WellFormed) (hinner : inner.WellFormed) (hdots : ".." ∉ q) :
    (t.put q inner).WellFormed := by
  induction q generalizing t with
  | nil => exact hinner
  | cons name q ih =>
      obtain ⟨hname, hq⟩ := not_or.mp (mt List.mem_cons.mpr hdots)
      refine h.put_entry (Ne.symm hname) (ih ?_ hq)
      cases hentry : t.entry? name with
      | none => exact .empty
      | some next => exact (h.find? (q := [name]) (by rw [FileTree.find?, hentry]; rfl)).1

theorem erase (h : t.WellFormed) (q : Place) : (t.erase q).WellFormed := by
  induction q generalizing t with
  | nil => exact .empty
  | cons name q ih =>
      obtain ⟨nodup, noDots, hentries⟩ := h.of_entries
      cases q with
      | nil =>
          have hkept : (Entries.erase name t.entries).Sublist t.entries := List.filter_sublist
          exact .directory (nodup.sublist (hkept.map Prod.fst))
            (fun hdots => noDots ((hkept.map Prod.fst).subset hdots))
            fun entry hentry => hentries entry (hkept.subset hentry)
      | cons next q =>
          rw [FileTree.erase.eq_def]
          dsimp only
          cases hentry : t.entry? name with
          | none => exact h
          | some inner =>
              rw [← lookup_entries] at hentry
              have hmem := Entries.mem_of_lookup hentry
              refine h.put_entry ?_ (ih (hentries _ hmem))
              rintro rfl
              exact noDots (List.mem_map.mpr ⟨_, hmem, rfl⟩)

/-- Making directories puts none where double dots lead. -/
theorem makeDirectories {t' : FileTree} (h : t.WellFormed)
    (hmade : FileTree.makeDirectories parts q t = .ok t') : t'.WellFormed := by
  induction parts generalizing t q with
  | nil =>
      rw [FileTree.makeDirectories] at hmade
      split at hmade
      · exact Except.ok.inj hmade ▸ h
      · cases hmade
  | cons part parts ih =>
      rw [FileTree.makeDirectories] at hmade
      split at hmade
      · cases hmade
      · cases hmade
      · next entries hplace =>
          split at hmade
          · exact ih h hmade
          · next hpart =>
              refine ih (h.put .empty fun hdots => ?_) hmade
              rcases List.mem_append.mp hdots with hdots | hdots
              · exact (h.find? hplace).2 hdots
              · rw [← List.mem_singleton.mp hdots] at hpart
                exact hpart (by simp)

end WellFormed

end FileTree

/-- Double dots are never part of a place, for they lead up. -/
theorem Path.noDots_foldl_step {place : Place} (h : ".." ∉ place) (parts : List String) :
    ".." ∉ parts.foldl step place := by
  induction parts generalizing place with
  | nil => exact h
  | cons part parts ih =>
      refine ih fun hdots => ?_
      rw [step] at hdots
      split at hdots
      · exact h (List.dropLast_subset place hdots)
      · next hpart =>
          rcases List.mem_append.mp hdots with hdots | hdots
          · exact h hdots
          · rw [← List.mem_singleton.mp hdots] at hpart
            exact hpart rfl

/-- Without double dots, parts lead further down. -/
theorem Path.foldl_step_of_noDots {parts : List String} (h : ".." ∉ parts) (place : Place) :
    parts.foldl step place = place ++ parts := by
  induction parts generalizing place with
  | nil => exact (List.append_nil place).symm
  | cons part parts ih =>
      obtain ⟨hpart, hparts⟩ := not_or.mp (mt List.mem_cons.mpr h)
      rw [List.foldl_cons, ih hparts, step, if_neg (mt beq_iff_eq.mp (Ne.symm hpart)),
        List.append_assoc]
      rfl

namespace Workspace
variable {w w' : Workspace} {p : Path} {bytes : List UInt8} {place : Place} {t : FileTree}

/-- Where a path leads somewhere, no double dots lead to the directory where it begins. -/
theorem noDots_start (h : w.tree.WellFormed) (hlocate : w.locate p = .ok (place, t)) :
    ".." ∉ w.start p := by
  obtain ⟨hfollow, hfind⟩ := locate_eq hlocate
  cases hparts : p.parts with
  | nil =>
      rw [hparts, FileTree.follow] at hfollow
      cases hfollow
      exact (h.find? hfind).2
  | cons part parts =>
      rw [hparts, FileTree.follow] at hfollow
      cases hstart : w.tree.find? (w.start p) with
      | none => rw [hstart] at hfollow; cases hfollow
      | some first => exact (h.find? hstart).2

theorem wellFormed_of_write (h : w.tree.WellFormed) (hwrite : w.write p bytes = .ok w') :
    w'.tree.WellFormed := by
  obtain ⟨place, rfl, hfollow⟩ := exists_of_write hwrite
  refine h.put .file ?_
  have hstart : ".." ∉ w.start p := by
    cases hparent : w.locate p.parent with
    | error obstacle =>
        rw [write, hparent] at hwrite
        split at hwrite <;> cases hwrite
    | ok found => exact noDots_start h (p := p.parent) hparent
  rw [FileTree.follow_eq hfollow]
  exact Path.noDots_foldl_step hstart p.parts

/-- Saving a file keeps the tree as trees are on a disk. -/
theorem wellFormed_of_save (h : w.tree.WellFormed) (hsave : w.save p bytes = .ok w') :
    w'.tree.WellFormed := by
  rw [save] at hsave
  cases hmade : w.makeDirectories p.parent with
  | error e => rw [hmade] at hsave; cases hsave
  | ok made =>
      rw [hmade] at hsave
      obtain ⟨tree, htree, rfl⟩ := exists_of_makeDirectories hmade
      exact wellFormed_of_write (w := { w with tree }) (h.makeDirectories htree) hsave

/-- So does deleting one. -/
theorem wellFormed_delete (h : w.tree.WellFormed) (p : Path) : (w.delete p).tree.WellFormed := by
  rw [delete]
  split
  · exact h.erase _
  · exact h

end Workspace

end PropSchema
