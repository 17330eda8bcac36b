import PropSchema.Proofs.TypeScript.Tracking
/-!
Types of the framework. Each is a plain record but for two kinds: a handler is a function of its
event, and one class has another as its base. The types that these lead to are plain records, so
they lead no further.
-/
namespace PropSchema.TypeScript

open Resolve

theorem endsWith_iff {s pat : String} : s.endsWith pat = true ↔ pat.toList <:+ s.toList := by
  rw [← String.endsWith_toSlice, String.Slice.endsWith_string_iff, String.copy_toSlice]

theorem splitLast_append {separator : Char} {last : List Char} (h : separator ∉ last)
    (before : List Char) : Text.splitLast separator (before ++ separator :: last) = (before, last) := by
  have hall : ∀ c ∈ last.reverse, (c != separator) = true := by
    intro c hc
    rw [List.mem_reverse] at hc
    simp only [bne_iff_ne, ne_eq]
    rintro rfl
    exact h hc
  have hlength : before.length + (last.length + 1) - last.length - 1 = before.length := by omega
  rw [Text.splitLast, List.reverse_append, List.reverse_cons, List.append_assoc,
    List.takeWhile_append_of_pos hall]
  simp [hlength]

theorem afterLast_qualified {name : String} (h : '.' ∉ name.toList) :
    Text.afterLast '.' (qualified name) = name := by
  have hlist : (qualified name).toList = "React".toList ++ '.' :: name.toList := by
    simp [qualified, frameworkName]
  rw [Text.afterLast, hlist, splitLast_append h]
  exact String.ofList_toList

theorem dot_not_mem_afterLast (s : String) : '.' ∉ (Text.afterLast '.' s).toList := by
  intro hm
  rw [Text.afterLast, Text.splitLast, String.toList_ofList, List.mem_reverse] at hm
  have hall := List.all_eq_true.mp List.all_takeWhile '.' hm
  simp at hall

/-- A type of the framework without structure. -/
def IsPlain (symbol : String) : Prop :=
  ∀ arguments, Label.frameworkForm symbol arguments =
    .record ⟨some (Text.afterLast '.' symbol), [], some symbol, arguments, []⟩

theorem isPlain_of_name {symbol : String}
    (hhandler : (Text.afterLast '.' symbol).endsWith "EventHandler" = false)
    (hpure : Text.afterLast '.' symbol ≠ "PureComponent") : IsPlain symbol := by
  intro arguments
  unfold Label.frameworkForm
  simp only [hhandler, Bool.false_eq_true, if_false, beq_iff_eq, hpure]

theorem isPlain_qualified {name : String} (hdot : '.' ∉ name.toList)
    (hhandler : ¬ "EventHandler".toList <:+ name.toList) (hpure : name ≠ "PureComponent") :
    IsPlain (qualified name) := by
  refine isPlain_of_name ?_ ?_
  · rw [afterLast_qualified hdot, Bool.eq_false_iff, ne_eq, endsWith_iff]
    exact hhandler
  · rw [afterLast_qualified hdot]
    exact hpure

/-- The event of a handler: its name is the one before the last word, and it is a plain record. -/
theorem event_of_handler {name : String} (h : name.endsWith "EventHandler" = true) :
    ∃ front, name.toList = front ++ "EventHandler".toList ∧
      (name.dropEnd "Handler".length).toString.toList = front ++ "Event".toList := by
  obtain ⟨front, hfront⟩ := endsWith_iff.mp h
  refine ⟨front, hfront.symm, ?_⟩
  have hlength : "Handler".length = 7 := rfl
  have hcut : (name.dropEnd "Handler".length).toString.toList =
      name.toList.take (name.toList.length - "Handler".length) := String.toList_copy_dropEnd
  have htotal : (front ++ "EventHandler".toList).length - 7 = front.length + 5 := by simp
  rw [hcut, ← hfront, hlength, htotal, List.take_length_add_append]
  rfl

theorem isPlain_event {name : String} (hdot : '.' ∉ name.toList)
    (h : name.endsWith "EventHandler" = true) :
    IsPlain (qualified (name.dropEnd "Handler".length).toString) := by
  obtain ⟨front, hname, hevent⟩ := event_of_handler h
  generalize (name.dropEnd "Handler".length).toString = event at hevent ⊢
  refine isPlain_qualified ?_ ?_ ?_
  · rw [hname] at hdot
    rw [hevent]
    simpa using hdot
  · rw [hevent]
    rintro ⟨rest, he⟩
    have hlast := congrArg List.getLast? he
    simp at hlast
  · rintro rfl
    have hsuffix : "Event".toList <:+ "PureComponent".toList := ⟨front, hevent.symm⟩
    revert hsuffix
    decide

theorem event_ne_handler {symbol : String}
    (h : (Text.afterLast '.' symbol).endsWith "EventHandler" = true) :
    qualified ((Text.afterLast '.' symbol).dropEnd "Handler".length).toString ≠ symbol := by
  have hdot := dot_not_mem_afterLast symbol
  obtain ⟨front, hname, hevent⟩ := event_of_handler h
  generalize hcut : ((Text.afterLast '.' symbol).dropEnd "Handler".length).toString = event at hevent ⊢
  have hdot' : '.' ∉ event.toList := by
    rw [hname] at hdot
    rw [hevent]
    simpa using hdot
  intro he
  have hsame := congrArg (fun s => (Text.afterLast '.' s).toList) he
  simp only [afterLast_qualified hdot', hname, hevent] at hsame
  simp at hsame

theorem frameworkNode_run (key : Instance) (make : Resolve NodeId) (r : Resolution) :
    frameworkNode key make r = match r.framework.lookup key with
      | some id => some (id, r)
      | none => (make r).bind fun (id, r) =>
        some (id, { r with framework := (key, id) :: r.framework }) := by
  rw [frameworkNode, get_bind]
  cases r.framework.lookup key <;> rfl

namespace Tracks
variable {sc : RootedScope} {sites : Nat → Option (ClassSite × String)} {owner : Owner} {o : Opens}
  {labels : List Label} {key : Instance} {i : LabelledInstance}

/-- What is new are some labels at the most. -/
def NewIn (labels new labels' : List Label) : Prop := ∀ l ∈ labels', l ∈ labels ∨ l ∈ new

/-- A framework type that is made after other nodes. -/
theorem frameworkNode {α β : Type} {m : Resolve α} {b : β} {form : α → TypeForm}
    {R : List Label → α → β → Prop} {new : List Label} (hkey : SameInstance labels key i)
    (hm : Tracks sc sites owner o labels m (Pure.pure b) (fun _ => o)
      fun labels' a b => R labels' a b ∧ NewIn labels new labels')
    (hform : ∀ labels' a, labels <+: labels' →
      At labels' TypeGraph.voidId (.shared TypeGraph.voidId) → R labels' a b →
      (form a).Rel (At labels') (Label.frameworkForm i.1 i.2))
    (hnew : .framework i.1 i.2 ∉ new) :
    Tracks sc sites owner o labels (frameworkNode key (m >>= fun a => push (form a) none))
      (Pure.pure (.framework i.1 i.2)) (fun _ => o) fun labels' id label =>
        At labels' id label ∧ NewIn labels (.framework i.1 i.2 :: new) labels' := by
  intro count r id r' h hrun
  rw [frameworkNode_run] at hrun
  split at hrun
  · next hl =>
      cases hrun
      have hfound := h.tables.framework.found SameInstance.instance_eq hkey hl
      exact ⟨_, _, labels, rfl, List.prefix_refl _, h, hfound, fun _ => .inl⟩
  · next hl =>
      have hmissing := h.tables.framework.missing (SameInstance.key_eq h.nodes.nodup) hkey hl
      obtain ⟨⟨id', r₂⟩, hmake, he⟩ := Option.bind_eq_some_iff.mp hrun
      cases he
      obtain ⟨⟨a, r₁⟩, hm₁, hpush⟩ := Option.bind_eq_some_iff.mp hmake
      cases hpush
      obtain ⟨b', count', labels₁, he, hpre, h₁, hR, hin⟩ := hm count r a r₁ h hm₁
      cases he
      have hkey₁ := hkey.mono hpre
      have hfree : r₁.framework.lookup key = none := by
        cases hl₁ : r₁.framework.lookup key with
        | none => rfl
        | some id =>
            have hfound := h₁.tables.framework.found SameInstance.instance_eq hkey₁ hl₁
            exact ((hin _ hfound.mem).elim hmissing hnew).elim
      have hvoid : At labels₁ TypeGraph.voidId (.shared TypeGraph.voidId) :=
        h₁.nodes.shared (by decide)
      have hpushed := h₁.push_framework hkey₁ hfree (hform labels₁ a hpre hvoid hR) none
      refine ⟨_, _, _, rfl, hpre.trans (List.prefix_append _ _), hpushed, ?_, ?_⟩
      · have hlast := At.last labels₁ (.framework i.1 i.2)
        rw [h₁.size] at hlast
        exact hlast
      · intro l hl
        obtain hl | hl := List.mem_append.mp hl
        · exact (hin l hl).imp_right (List.mem_cons_of_mem _)
        · cases List.mem_singleton.mp hl
          exact .inr List.mem_cons_self

theorem frameworkRecord {symbol : String} {arguments : List NodeId} {largs : List Label}
    (hall : List.Forall₂ (At labels) arguments largs) (hplain : IsPlain symbol) :
    Tracks sc sites owner o labels
      (TypeScript.frameworkNode (symbol, arguments) (frameworkRecord symbol arguments []))
      (Pure.pure (.framework symbol largs)) (fun _ => o) fun labels' id label =>
        At labels' id label ∧ NewIn labels [.framework symbol largs] labels' := by
  have hkey : SameInstance labels (symbol, arguments) (symbol, largs) := ⟨rfl, hall⟩
  change Tracks sc sites owner o labels
    (TypeScript.frameworkNode (symbol, arguments) (Pure.pure () >>= fun _ => push
      (.record ⟨some (Text.afterLast '.' symbol), [], some symbol, arguments, []⟩) none)) _ _ _
  refine frameworkNode (R := fun _ _ (_ : Unit) => True) (b := ()) hkey
    (pure ⟨trivial, fun _ => .inl⟩) ?_ List.not_mem_nil
  intro labels' _ hpre _ _
  rw [hplain]
  exact .record ⟨rfl, .nil, rfl, At.all_mono hpre hall, .nil⟩

/-- A handler is made after its event. -/
theorem frameworkHandler {symbol : String} {arguments : List NodeId} {largs new : List Label}
    {m : Resolve NodeId} {event : Label} (hall : List.Forall₂ (At labels) arguments largs)
    (hm : Tracks sc sites owner o labels m (Pure.pure event) (fun _ => o) fun labels' id label =>
      At labels' id label ∧ NewIn labels new labels')
    (hform : Label.frameworkForm symbol largs =
      .function ⟨[⟨"event", event, false⟩], .shared TypeGraph.voidId, some symbol⟩)
    (hnew : .framework symbol largs ∉ new) :
    Tracks sc sites owner o labels
      (TypeScript.frameworkNode (symbol, arguments) (m >>= fun event => push
        (.function ⟨[⟨"event", event, false⟩], TypeGraph.voidId, some symbol⟩) none))
      (Pure.pure (.framework symbol largs)) (fun _ => o) At := by
  have hkey : SameInstance labels (symbol, arguments) (symbol, largs) := ⟨rfl, hall⟩
  refine (frameworkNode hkey hm ?_ hnew).imp fun _ _ _ _ h => h.1
  intro labels' id _ hvoid ha
  rw [hform]
  exact .function ⟨.cons ⟨rfl, ha, rfl⟩ .nil, hvoid, rfl⟩

theorem frameworkType {symbol : String} {arguments : List NodeId} {largs : List Label}
    (hall : List.Forall₂ (At labels) arguments largs) :
    Tracks sc sites owner o labels (frameworkType symbol arguments)
      (Pure.pure (.framework symbol largs)) (fun _ => o) At := by
  have hkey : SameInstance labels (symbol, arguments) (symbol, largs) := ⟨rfl, hall⟩
  unfold TypeScript.frameworkType
  dsimp only
  by_cases hhandler : (Text.afterLast '.' symbol).endsWith "EventHandler" = true
  · rw [if_pos hhandler]
    by_cases hbare : (Text.afterLast '.' symbol == "EventHandler") = true
    · rw [if_pos hbare]
      cases hall with
      | nil =>
          refine frameworkHandler .nil (frameworkRecord .nil
            (isPlain_qualified (by decide) (by decide) (by decide))) ?_ ?_
          · simp only [Label.frameworkForm, hhandler, hbare, if_true]
          · intro hm
            rw [List.mem_singleton, Label.framework.injEq] at hm
            rw [hm.1, afterLast_qualified (by decide)] at hbare
            revert hbare
            decide
      | @cons first lfirst rest lrest ha hrest =>
          have hfirst : Tracks sc sites owner o labels (Pure.pure first) (Pure.pure lfirst)
              (fun _ => o) fun labels' id label => At labels' id label ∧ NewIn labels [] labels' :=
            pure ⟨ha, fun _ => .inl⟩
          refine frameworkHandler (.cons ha hrest) hfirst ?_ List.not_mem_nil
          simp only [Label.frameworkForm, hhandler, hbare, if_true]
    · rw [if_neg hbare]
      refine frameworkHandler hall (frameworkRecord hall
        (isPlain_event (dot_not_mem_afterLast symbol) hhandler)) ?_ ?_
      · simp only [Label.frameworkForm, hhandler, hbare, if_true, Bool.false_eq_true, if_false]
      · intro hm
        rw [List.mem_singleton, Label.framework.injEq] at hm
        exact event_ne_handler hhandler hm.1.symm
  · rw [if_neg hhandler]
    by_cases hpure : (Text.afterLast '.' symbol == "PureComponent") = true
    · rw [if_pos hpure]
      have hcomponent : IsPlain (qualified "Component") :=
        isPlain_qualified (by decide) (by decide) (by decide)
      refine (frameworkNode hkey (frameworkRecord hall hcomponent) ?_ ?_).imp fun _ _ _ _ h => h.1
      · intro labels' id hpre _ ha
        simp only [Label.frameworkForm, hhandler, hpure, if_true, Bool.false_eq_true, if_false]
        exact .record ⟨rfl, .nil, rfl, At.all_mono hpre hall, .cons ha .nil⟩
      · intro hm
        rw [List.mem_singleton, Label.framework.injEq] at hm
        have hsymbol : symbol = qualified "Component" := hm.1
        rw [hsymbol, afterLast_qualified (by decide)] at hpure
        revert hpure
        decide
    · rw [if_neg hpure]
      have hplain : IsPlain symbol :=
        isPlain_of_name (Bool.eq_false_iff.mpr hhandler) fun he => hpure (beq_iff_eq.mpr he)
      exact (frameworkRecord hall hplain).imp fun _ _ _ _ h => h.1

end Tracks

end PropSchema.TypeScript
