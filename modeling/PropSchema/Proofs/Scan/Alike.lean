import PropSchema.Proofs.Classify.Abreast
import PropSchema.Proofs.Scan.Lenient
import PropSchema.Proofs.TypeScript.ExportsAlike
/-!
Lenient scans of modules that are alike. What the one gives the other gives, if only it may go as
deep; where neither has parentheses that the other lacks, they give the same at every depth.
-/
namespace PropSchema.Scan

open TypeScript Filter
variable {rules : ComponentRules} {v : Variation} {m m' : Module} {src : Source} {x : Extraction}
  {outcome : Except PassFault Extraction}

/-- The outcome of a source, with classification to a depth that goes by the graph of its types. -/
def outcomeBy (rules : ComponentRules) (bound : TypeGraph → Nat) (src : Source) :
    Except PassFault Extraction :=
  match src.exportedClasses.run .initial with
  | none => .error .tooDeep
  | some (classes, r) => ((Components.findTo rules r.graph (bound r.graph) classes).run .fresh).1

theorem outcome_eq_outcomeBy (rules : ComponentRules) (src : Source) :
    (ofSource rules src).outcome = outcomeBy rules TypeGraph.classifyDepth src := by
  unfold outcomeBy
  cases hrun : src.exportedClasses.run .initial with
  | none => exact outcome_of_none hrun
  | some p => rw [outcome_eq hrun, Components.find_eq_findTo]

/-- An outcome that has not been given up for depth: a result, or the want of a text. -/
def Decided (outcome : Except PassFault Extraction) : Prop :=
  ∀ fault, outcome = .error fault → fault = .unwritable

theorem decided_ok (x : Extraction) : Decided (.ok x) := nofun

theorem decided_unwritable : Decided (.error .unwritable) := by
  rintro _ ⟨⟩
  rfl

/-- A source has a decided outcome if its types are resolved and the search among them ends so. -/
theorem outcomeBy_eq_iff {bound : TypeGraph → Nat} (hdecided : Decided outcome) :
    outcomeBy rules bound src = outcome ↔ ∃ classes r,
      src.exportedClasses .initial = some (classes, r) ∧
        ((Components.findTo rules r.graph (bound r.graph) classes).run .fresh).1 = outcome := by
  unfold outcomeBy
  constructor
  · intro h
    split at h
    · cases hdecided _ h.symm
    · next classes r hrun => exact ⟨classes, r, hrun, h⟩
  · rintro ⟨classes, r, hrun, h⟩
    have hrun : src.exportedClasses.run .initial = some (classes, r) := hrun
    rw [hrun]
    exact h

/-- The source of a module that is resolved to a depth. -/
def atDepth (m : Module) (depth : Nat) : Source := ⟨m, .ofModule m, depth⟩

/-- The classes that a second module exports are alike to those of the first, at the depths that it
may need. -/
def ExportsFollow (v : Variation) (m m' : Module) : Prop :=
  ∀ depth, Follows (v.deep depth) (.initial v) (atDepth m depth).exportedClasses
    (fun depth' => (atDepth m' depth').exportedClasses) fun w => List.Forall₂ w.rel

theorem exportsFollow_of_alike (h : m.Alike v m') : ExportsFollow v m m' := fun depth =>
  Source.exportedClasses_follows (atDepth m depth) (atDepth m' depth) h.scope h.exports

/-- What is decided in a module, is decided in one whose exports follow at the depths that it may
need. -/
theorem outcomeBy_follows (lenient : rules.policy = .lenient) (h : ExportsFollow v m m')
    (hsame : v.symbol = rules.Same) (bound bound' : TypeGraph → Nat)
    (hbound : ∀ g g' : TypeGraph, (¬ v.left → g.size ≤ g'.size) → bound g ≤ bound' g') {depth : Nat}
    (hdecided : Decided outcome) (hx : outcomeBy rules bound (atDepth m depth) = outcome) :
    ∀ᶠ depth' in v.deep depth, outcomeBy rules bound' (atDepth m' depth') = outcome := by
  obtain ⟨classes, r, hrun, hfind⟩ := (outcomeBy_eq_iff hdecided).mp hx
  obtain ⟨classes', w, -, rfl, hrun', hclasses⟩ := h depth classes r hrun
  have hlikeness := w.likeness
  rw [hsame] at hlikeness
  have hfollows := Components.findTo_follows lenient hlikeness (hbound _ _ w.sizes) hclasses
  have heq := hfollows.fst_eq (Context.Abreast.fresh w.rel) (hfind ▸ hdecided)
  filter_upwards [hrun'] with depth hdepth
  exact (outcomeBy_eq_iff hdecided).mpr ⟨classes', w.right, hdepth, heq.trans hfind⟩

/-- What a module gives, if it is resolved and classified as deep as it takes. -/
def Yields (rules : ComponentRules) (m : Module) (x : Extraction) : Prop :=
  ∃ depth bound, outcomeBy rules (fun _ => bound) (atDepth m depth) = .ok x

/-- How a module ends, if it is resolved and classified as deep as it takes. -/
structure Ends (rules : ComponentRules) (m : Module) (outcome : Except PassFault Extraction) :
    Prop where
  decided : Decided outcome
  reached : ∃ depth bound, outcomeBy rules (fun _ => bound) (atDepth m depth) = outcome

theorem yields_iff_ends : Yields rules m x ↔ Ends rules m (.ok x) :=
  ⟨fun h => ⟨decided_ok x, h⟩, Ends.reached⟩

/-- What the program decides is how the module ends. -/
theorem ends_of_outcome {depth : Nat} (hdecided : Decided outcome)
    (h : (ofSource rules (atDepth m depth)).outcome = outcome) : Ends rules m outcome := by
  rw [outcome_eq_outcomeBy] at h
  obtain ⟨classes, r, hrun, hfind⟩ := (outcomeBy_eq_iff hdecided).mp h
  exact ⟨hdecided, depth, r.graph.classifyDepth,
    (outcomeBy_eq_iff hdecided).mpr ⟨classes, r, hrun, hfind⟩⟩

theorem classifyDepth_mono {g g' : TypeGraph} (h : g.size ≤ g'.size) :
    g.classifyDepth ≤ g'.classifyDepth := by
  unfold TypeGraph.classifyDepth
  gcongr

theorem deep_neBot (v : Variation) (depth : Nat) : (v.deep depth).NeBot := by
  unfold Variation.deep
  split
  · exact atTop_neBot
  · exact principal_neBot_iff.mpr Set.nonempty_Ici

theorem same_swap (hsame : v.symbol = rules.Same) : v.flip.symbol = rules.Same := by
  funext symbol symbol'
  change v.symbol symbol' symbol = _
  rw [hsame]
  exact propext ⟨.symm, .symm⟩

theorem Ends.of_alike (lenient : rules.policy = .lenient) (h : m.Alike v m')
    (hsame : v.symbol = rules.Same) (hends : Ends rules m outcome) : Ends rules m' outcome := by
  obtain ⟨hdecided, depth, bound, hx⟩ := hends
  have hdeep := deep_neBot v depth
  obtain ⟨depth', hx'⟩ := (outcomeBy_follows lenient (exportsFollow_of_alike h) hsame _
    (fun _ => bound) (fun _ _ _ => le_refl bound) hdecided hx).exists
  exact ⟨hdecided, depth', bound, hx'⟩

/-- A module ends in one way, if there is a module alike without more parentheses. -/
theorem Ends.unique (lenient : rules.policy = .lenient) (h : m.Alike v m')
    (hsame : v.symbol = rules.Same) (hright : ¬ v.right) {outcome' : Except PassFault Extraction}
    (hends : Ends rules m outcome) (hends' : Ends rules m outcome') : outcome = outcome' := by
  obtain ⟨hdecided, depth, bound, hx⟩ := hends
  obtain ⟨hdecided', depth', bound', hy⟩ := hends'
  have hfollow := exportsFollow_of_alike h
  have hxs := outcomeBy_follows lenient hfollow hsame _ (fun _ => max bound bound')
    (fun _ _ _ => le_max_left bound bound') hdecided hx
  have hys := outcomeBy_follows lenient hfollow hsame _ (fun _ => max bound bound')
    (fun _ _ _ => le_max_right bound bound') hdecided' hy
  rw [Variation.deep, if_neg hright] at hxs hys
  have hx' : outcomeBy rules _ (atDepth m' (max depth depth')) = outcome :=
    hxs (Set.mem_Ici.mpr (le_max_left depth depth'))
  have hy' : outcomeBy rules _ (atDepth m' (max depth depth')) = outcome' :=
    hys (Set.mem_Ici.mpr (le_max_right depth depth'))
  exact hx'.symm.trans hy'

/-- By lenient rules a scan is decided or given up for depth. -/
theorem decided_or_tooDeep (lenient : rules.policy = .lenient) (plain : rules.registry.Plain)
    (src : Source) :
    Decided (ofSource rules src).outcome ∨ (ofSource rules src).outcome = .error .tooDeep := by
  cases hrun : src.exportedClasses.run .initial with
  | none => exact .inr (outcome_of_none hrun)
  | some p =>
      obtain ⟨x, hx, -⟩ | ⟨hdeep, -⟩ | ⟨hlong, -⟩ := lenient_succeeds lenient plain hrun
      · exact .inl (hx ▸ decided_ok x)
      · exact .inr hdeep
      · exact .inl (hlong ▸ decided_unwritable)

/-- Where no parentheses are added, what is decided in a module at a depth is decided in one whose
exports follow at every greater depth. -/
theorem outcome_of_follows (lenient : rules.policy = .lenient) (h : ExportsFollow v m m')
    (hsame : v.symbol = rules.Same) (hleft : ¬ v.left) (hright : ¬ v.right) {depth depth' : Nat}
    (hdepth : depth ≤ depth') (hdecided : Decided outcome)
    (hx : (ofSource rules (atDepth m depth)).outcome = outcome) :
    (ofSource rules (atDepth m' depth')).outcome = outcome := by
  rw [outcome_eq_outcomeBy] at hx ⊢
  have hevent := outcomeBy_follows lenient h hsame _ TypeGraph.classifyDepth
    (fun g g' hsize => classifyDepth_mono (hsize hleft)) hdecided hx
  rw [Variation.deep, if_neg hright] at hevent
  exact hevent hdepth

theorem ok_of_alike (lenient : rules.policy = .lenient) (h : m.Alike v m')
    (hsame : v.symbol = rules.Same) (hleft : ¬ v.left) (hright : ¬ v.right) {depth depth' : Nat}
    (hdepth : depth ≤ depth') (hx : (ofSource rules (atDepth m depth)).outcome = .ok x) :
    (ofSource rules (atDepth m' depth')).outcome = .ok x :=
  outcome_of_follows lenient (exportsFollow_of_alike h) hsame hleft hright hdepth (decided_ok x) hx

/-- Modules whose exports follow each other without more parentheses have the same outcome. -/
theorem outcome_eq_of_follows (lenient : rules.policy = .lenient) (plain : rules.registry.Plain)
    {v' : Variation} (h : ExportsFollow v m m') (h' : ExportsFollow v' m' m)
    (hsame : v.symbol = rules.Same ∧ v'.symbol = rules.Same) (hv : ¬ v.left ∧ ¬ v.right)
    (hv' : ¬ v'.left ∧ ¬ v'.right) (depth : Nat) :
    (ofSource rules (atDepth m' depth)).outcome = (ofSource rules (atDepth m depth)).outcome := by
  obtain hdecided | hdeep := decided_or_tooDeep lenient plain (atDepth m depth)
  · exact outcome_of_follows lenient h hsame.1 hv.1 hv.2 (le_refl depth) hdecided rfl
  · obtain hdecided | hdeep' := decided_or_tooDeep lenient plain (atDepth m' depth)
    · exact (outcome_of_follows lenient h' hsame.2 hv'.1 hv'.2 (le_refl depth) hdecided rfl).symm
    · rw [hdeep, hdeep']

/-- Where no parentheses are added or left out, modules that are alike have the same outcome. -/
theorem outcome_eq_of_alike (lenient : rules.policy = .lenient) (plain : rules.registry.Plain)
    (h : m.Alike v m') (hsame : v.symbol = rules.Same) (hleft : ¬ v.left) (hright : ¬ v.right)
    (depth : Nat) :
    (ofSource rules (atDepth m' depth)).outcome = (ofSource rules (atDepth m depth)).outcome :=
  outcome_eq_of_follows lenient plain (exportsFollow_of_alike h) (exportsFollow_of_alike h.flip)
    ⟨hsame, same_swap hsame⟩ ⟨hleft, hright⟩ ⟨hright, hleft⟩ depth

end PropSchema.Scan
