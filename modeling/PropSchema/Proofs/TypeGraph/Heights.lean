import Mathlib.Data.Finset.Card
import Mathlib.Logic.Relation
import PropSchema.Proofs.TypeGraph.Likeness
import PropSchema.TypeGraph.Render
/-!
Type graphs whose cycles all lead through the properties of records. Their nodes have heights, which
get smaller from a type to what it is made of, so no question about a type goes deeper than the
graph is large.
-/
namespace PropSchema

section Height
open Classical
variable {size : Nat} {rel : NodeId → NodeId → Prop} {a b : NodeId}

/-- The number of nodes that are related to others and that a node leads to. -/
noncomputable def height (size : Nat) (rel : NodeId → NodeId → Prop) (a : NodeId) : Nat :=
  ((Finset.range size).filter fun b => (∃ c, rel b c) ∧ Relation.ReflTransGen rel a b).card

theorem height_le : height size rel a ≤ size := by
  have hle := Finset.card_filter_le (Finset.range size)
    fun b => (∃ c, rel b c) ∧ Relation.ReflTransGen rel a b
  rwa [Finset.card_range] at hle

theorem height_eq_zero (h : ∀ b, ¬ rel a b) : height size rel a = 0 := by
  refine Finset.card_eq_zero.mpr (Finset.filter_eq_empty_iff.mpr ?_)
  rintro b - ⟨⟨c, hbc⟩, hab⟩
  cases hab.cases_head with
  | inl hab => exact h c (hab ▸ hbc)
  | inr hab =>
      obtain ⟨d, had, -⟩ := hab
      exact h d had

theorem height_lt (hsize : ∀ {a b}, rel a b → a < size) (hacyclic : ¬ Relation.TransGen rel a a)
    (hab : rel a b) : height size rel b < height size rel a := by
  refine Finset.card_lt_card (Finset.ssubset_iff_of_subset ?_ |>.mpr ⟨a, ?_, ?_⟩)
  · intro c hc
    rw [Finset.mem_filter] at hc ⊢
    exact ⟨hc.1, hc.2.1, .head hab hc.2.2⟩
  · rw [Finset.mem_filter, Finset.mem_range]
    exact ⟨hsize hab, ⟨b, hab⟩, .refl⟩
  · intro ha
    rw [Finset.mem_filter] at ha
    exact hacyclic (.head' hab ha.2.2)

end Height

/-- Where every step goes to a smaller number, so does every way. -/
theorem lt_of_transGen {rel : NodeId → NodeId → Prop} (h : ∀ {a b}, rel a b → b < a)
    {a b : NodeId} (hab : Relation.TransGen rel a b) : b < a := by
  induction hab with
  | single hab => exact h hab
  | tail _ hbc ih => exact Nat.lt_trans (h hbc) ih

/-- What a type is made of. The properties of a record are no part of it. -/
def TypeForm.parts : TypeForm → List NodeId
  | .union members => members
  | .intersection members => members
  | .array element => [element]
  | .tuple elements => elements
  | .function f => f.result :: f.parameters.map Parameter.type
  | .partialOf target => [target]
  | _ => []

namespace TypeGraph

/-- What a type holds without a property between: its parts, its arguments and its bound. -/
def nested (g : TypeGraph) (id : NodeId) : List NodeId :=
  (g.form id).parts ++ g.arguments id ++ (g.constraint? id).toList

def Nests (g : TypeGraph) (a b : NodeId) : Prop := b ∈ g.nested a

/-- The shared primitives are where they are looked for. -/
def HasPrimitives (g : TypeGraph) : Prop :=
  ∀ id < primitiveNames.length, g.form id = initial.form id

theorem hasPrimitives_append (more : Array TypeNode) :
    HasPrimitives ⟨initial.nodes ++ more⟩ := by
  intro id hid
  have hid : id < initial.nodes.size := hid
  simp [form, node, Array.getElem?_append_left hid]

variable {g : TypeGraph}

theorem HasPrimitives.undefined (hg : g.HasPrimitives) :
    g.form undefinedId = .primitive "undefined" := hg undefinedId (by decide)

theorem nests_of_part {a b : NodeId} {form : TypeForm} (ha : g.form a = form)
    (hb : b ∈ form.parts) : g.Nests a b := by
  subst ha
  exact List.mem_append_left _ (List.mem_append_left _ hb)

theorem nests_of_argument {a b : NodeId} (hb : b ∈ g.arguments a) : g.Nests a b :=
  List.mem_append_left _ (List.mem_append_right _ hb)

theorem nests_of_constraint {a b : NodeId} (hb : g.constraint? a = some b) : g.Nests a b :=
  List.mem_append_right _ (Option.mem_toList.mpr hb)

theorem Nests.lt_size {a b : NodeId} (h : g.Nests a b) : a < g.size := by
  by_contra hge
  have hform := form_of_size_le (Nat.le_of_not_lt hge)
  simp [Nests, nested, TypeForm.parts, arguments, constraint?, hform] at h

/-- Questions about types have the answers that they have at the depth of the graph also at every
greater depth. -/
structure Settled (g : TypeGraph) : Prop where
  leaves : ∀ members depth, g.depth ≤ depth → g.leavesTo depth members = g.leaves members
  isVoidLike : ∀ id depth, g.depth ≤ depth → g.isVoidLikeTo depth id = g.isVoidLikeTo g.depth id
  isRecord : ∀ id depth, g.depth ≤ depth → g.isRecordTo depth id = g.isRecord id
  properties : ∀ id depth, g.depth ≤ depth → g.propertiesTo depth id = g.properties id
  render : ∀ id depth, g.depth ≤ depth → g.renderTo depth id = g.renderTo g.depth id

section Depth
variable {height : NodeId → Nat} (hlt : ∀ {a b}, g.Nests a b → height b < height a)
include hlt

/-- An answer that is made from answers for what a type nests does not depend on the depth, once
that exceeds the height of the type. -/
theorem eq_of_height_lt {β : Type} (answer : Nat → NodeId → β)
    (hstep : ∀ d d' a, (∀ b, g.Nests a b → answer d b = answer d' b) →
      answer (d + 1) a = answer (d' + 1) a)
    {d d' : Nat} {a : NodeId} (ha : height a < d) (ha' : height a < d') :
    answer d a = answer d' a := by
  induction d generalizing d' a with
  | zero => exact absurd ha (Nat.not_lt_zero _)
  | succ d ih =>
      cases d' with
      | zero => exact absurd ha' (Nat.not_lt_zero _)
      | succ d' =>
          refine hstep d d' a fun b hb => ?_
          have hb := hlt hb
          exact ih (by omega) (by omega)

theorem leavesTo_eq {d d' : Nat} {members : List NodeId} (h : ∀ m ∈ members, height m < d)
    (h' : ∀ m ∈ members, height m < d') : g.leavesTo d members = g.leavesTo d' members := by
  induction d generalizing d' members with
  | zero =>
      obtain rfl : members = [] := List.eq_nil_iff_forall_not_mem.mpr fun m hm =>
        Nat.not_lt_zero _ (h m hm)
      cases d' <;> rfl
  | succ d ih =>
      cases d' with
      | zero =>
          obtain rfl : members = [] := List.eq_nil_iff_forall_not_mem.mpr fun m hm =>
            Nat.not_lt_zero _ (h' m hm)
          rfl
      | succ d' =>
          rw [leavesTo_succ, leavesTo_succ]
          refine List.foldl_ext _ _ _ fun found m hm => congrArg _ ?_
          unfold memberLeaves
          split
          · next inner hform =>
              have hinner : ∀ i ∈ inner, height i < height m := fun i hi =>
                hlt (nests_of_part hform hi)
              refine ih (fun i hi => ?_) fun i hi => ?_
              · exact Nat.lt_of_lt_of_le (hinner i hi) (Nat.le_of_lt_succ (h m hm))
              · exact Nat.lt_of_lt_of_le (hinner i hi) (Nat.le_of_lt_succ (h' m hm))
          · rfl

theorem isVoidLikeTo_eq {d d' : Nat} {a : NodeId} (ha : height a < d) (ha' : height a < d') :
    g.isVoidLikeTo d a = g.isVoidLikeTo d' a := by
  refine eq_of_height_lt hlt g.isVoidLikeTo (fun d d' a ih => ?_) ha ha'
  rw [isVoidLikeTo, isVoidLikeTo]
  split
  · rfl
  · next members hform =>
      exact congrArg _ (all_eq_of_mem fun m hm => ih m (nests_of_part hform hm))
  · rfl

theorem isRecordTo_eq {d d' : Nat} {a : NodeId} (ha : height a < d) (ha' : height a < d') :
    g.isRecordTo d a = g.isRecordTo d' a := by
  refine eq_of_height_lt hlt g.isRecordTo (fun d d' a ih => ?_) ha ha'
  rw [isRecordTo, isRecordTo]
  split
  case h_4 members hform =>
    exact congrArg _ (all_eq_of_mem fun m hm => ih m (nests_of_part hform hm))
  all_goals rfl

theorem propertiesTo_eq {d d' : Nat} {a : NodeId} (ha : height a < d) (ha' : height a < d') :
    g.propertiesTo d a = g.propertiesTo d' a := by
  refine eq_of_height_lt hlt g.propertiesTo (fun d d' a ih => ?_) ha ha'
  rw [propertiesTo, propertiesTo]
  split
  · rfl
  · next target hform => rw [ih target (nests_of_part hform List.mem_cons_self)]
  · next members hform =>
      exact congrArg _ (List.flatMap_congr fun m hm => ih m (nests_of_part hform hm))
  · rfl

theorem renderTo_eq {d d' : Nat} {a : NodeId} (ha : height a < d) (ha' : height a < d') :
    g.renderTo d a = g.renderTo d' a := by
  refine eq_of_height_lt hlt g.renderTo (fun d d' a ih => ?_) ha ha'
  have hparts : ∀ {form}, g.form a = form → form.parts.mapM (g.renderTo d) =
      form.parts.mapM (g.renderTo d') := fun hform =>
    Sequences.mapM_congr fun b hb => ih b (nests_of_part hform hb)
  rw [renderTo, renderTo]
  split
  case h_3 members hform => exact congrArg _ (hparts hform)
  case h_4 members hform => exact congrArg _ (hparts hform)
  case h_5 element hform => rw [ih element (nests_of_part hform List.mem_cons_self)]
  case h_6 elements hform =>
    have helements : elements.mapM (g.renderTo d) = elements.mapM (g.renderTo d') := hparts hform
    dsimp only
    rw [helements]
  case h_8 f hform =>
    have htype : ∀ p ∈ f.parameters, g.renderTo d p.type = g.renderTo d' p.type := fun p hp =>
      ih p.type (nests_of_part hform (List.mem_cons_of_mem _ (List.mem_map_of_mem hp)))
    rw [ih f.result (nests_of_part hform List.mem_cons_self)]
    refine congrArg (· >>= _) (Sequences.mapM_congr fun p hp => ?_)
    rw [htype p hp]
  case h_9 r hform =>
    have harguments : r.arguments.mapM (g.renderTo d) = r.arguments.mapM (g.renderTo d') :=
      Sequences.mapM_congr fun b hb =>
        ih b (nests_of_argument (by simpa [arguments, hform] using hb))
    dsimp only
    rw [harguments]
  case h_10 target hform => rw [ih target (nests_of_part hform List.mem_cons_self)]
  all_goals rfl

theorem settled_of_heights (hle : ∀ id, height id ≤ g.size) : g.Settled := by
  have hdepth : ∀ id depth, g.depth ≤ depth → height id < depth := fun id depth hd =>
    Nat.lt_of_lt_of_le (Nat.lt_succ_of_le (hle id)) hd
  have hself : ∀ id, height id < g.depth := fun id => hdepth id _ (Nat.le_refl _)
  constructor
  · exact fun members depth hd =>
      leavesTo_eq hlt (fun m _ => hdepth m depth hd) fun m _ => hself m
  · exact fun id depth hd => isVoidLikeTo_eq hlt (hdepth id depth hd) (hself id)
  · exact fun id depth hd => isRecordTo_eq hlt (hdepth id depth hd) (hself id)
  · exact fun id depth hd => propertiesTo_eq hlt (hdepth id depth hd) (hself id)
  · exact fun id depth hd => renderTo_eq hlt (hdepth id depth hd) (hself id)

end Depth

end TypeGraph

end PropSchema
