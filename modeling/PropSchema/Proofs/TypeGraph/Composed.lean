import PropSchema.Proofs.TypeGraph.NestedUnions
/-!
Records made of object types and functions by intersections and partial types, nested in any way.
Their properties are told by the object types at the leaves alone, from left to right: of each name
the first, optional where it was or where a partial type is above it. So intersections may be
grouped otherwise, and a partial type may be taken of the whole or of the members.
-/
namespace PropSchema

namespace TypeGraph
variable {g : TypeGraph}

theorem lt_size_of_mem_constituents (a part : NodeId) (h : part ∈ g.constituents a) :
    a < g.size := by
  by_contra hge
  exact form_ne_of_mem_constituents h (form_of_size_le (Nat.le_of_not_lt hge))

/-- A partial type has the properties of its target, all of them optional. -/
theorem properties_of_partialOf {part target : NodeId} (hform : g.form part = .partialOf target)
    (h : Grounded g.constituents target) :
    g.properties part = (g.properties target).map fun p => { p with optional := true } := by
  have hpart : Grounded g.constituents part := by
    refine ⟨part, fun other ho => ?_⟩
    rw [constituents_of_partialOf hform] at ho
    exact List.mem_singleton.mp ho ▸ h
  have htarget : g.propertiesTo g.size target = g.propertiesTo (g.size + 1) target :=
    hpart.answer_parts lt_size_of_mem_constituents propertiesTo_step
      (constituents_of_partialOf hform ▸ List.mem_singleton_self target)
  rw [properties, depth, propertiesTo, hform]
  exact congrArg _ htarget

/-- An intersection has the properties of its members, the first of each name. -/
theorem properties_of_intersection {whole : NodeId} {members : List NodeId}
    (hform : g.form whole = .intersection members)
    (h : ∀ m ∈ members, Grounded g.constituents m) :
    g.properties whole = firstOfEachName (members.flatMap g.properties) := by
  have hwhole : Grounded g.constituents whole :=
    ⟨whole, fun m hm => h m (constituents_of_intersection hform ▸ hm)⟩
  rw [properties, depth, propertiesTo, hform]
  exact congrArg _ (List.flatMap_congr fun m hm =>
    hwhole.answer_parts lt_size_of_mem_constituents propertiesTo_step
      (constituents_of_intersection hform ▸ hm))

end TypeGraph

/-- A property where it stands in a leaf, and whether a partial type is above the leaf. -/
structure Occurrence where
  property : Property
  underPartial : Bool

namespace Occurrence

def name (o : Occurrence) : String := o.property.name

/-- The occurrence with one more partial type above it. -/
def under (o : Occurrence) : Occurrence := { o with underPartial := true }

/-- The property as it is listed. -/
def listed (o : Occurrence) : Property :=
  ⟨o.name, o.property.type?, o.property.optional || o.underPartial, o.property.declaration⟩

theorem listed_own (p : Property) : listed ⟨p, false⟩ = p := by
  simp only [listed, name, Bool.or_false]

theorem listed_under (o : Occurrence) : o.under.listed = { o.listed with optional := true } := by
  simp only [listed, name, under, Bool.or_true]

end Occurrence

/-- A record that is made of object types and functions, with all properties of its leaves from
left to right. No object type has two properties of one name. -/
inductive TypeGraph.Composed (g : TypeGraph) : NodeId → List Occurrence → Prop where
  | object {id r} (form : g.form id = .record r)
      (distinct : (r.properties.map Property.name).Nodup) :
      Composed g id (r.properties.map fun p => ⟨p, false⟩)
  | function {id f} (form : g.form id = .function f) : Composed g id []
  | intersection {id members} {leaves : NodeId → List Occurrence}
      (form : g.form id = .intersection members) (each : ∀ m ∈ members, Composed g m (leaves m)) :
      Composed g id (members.flatMap leaves)
  | partialOf {id target leaves} (form : g.form id = .partialOf target)
      (of : Composed g target leaves) : Composed g id (leaves.map Occurrence.under)

/-- The properties that leaves tell of: of each name the first occurrence, in their order. -/
structure Enumerates (properties : List Property) (leaves : List Occurrence) : Prop where
  distinct : (properties.map Property.name).Nodup
  order : properties.map Property.name = (leaves.map Occurrence.name).eraseDups
  first : ∀ p ∈ properties, ∃ o, leaves.find? (·.name == p.name) = some o ∧ p = o.listed

section Firsts
variable {ps qs : List Property}

theorem firstOfEachName_flatMap {ι : Type} (members : List ι) (f : ι → List Property) :
    firstOfEachName (members.flatMap fun m => firstOfEachName (f m)) =
      firstOfEachName (members.flatMap f) :=
  Sequences.addNew_flatMap sameName_trans [] members f

theorem firstOfEachName_map {f : Property → Property} (hf : ∀ p, (f p).name = p.name) :
    firstOfEachName (ps.map f) = (firstOfEachName ps).map f :=
  Sequences.addNew_map (fun p q => by rw [hf, hf]) [] ps

theorem firstOfEachName_append :
    firstOfEachName (ps ++ qs) =
      Sequences.addNew (fun p q => p.name == q.name) (firstOfEachName ps) qs := by
  rw [firstOfEachName_eq_addNew, firstOfEachName_eq_addNew, Sequences.addNew_append]

theorem firstOfEachName_append_left :
    firstOfEachName (firstOfEachName ps ++ qs) = firstOfEachName (ps ++ qs) := by
  have htwice : firstOfEachName (firstOfEachName ps) = firstOfEachName ps :=
    Sequences.addNew_addNew sameName_trans [] [] ps
  rw [firstOfEachName_append, firstOfEachName_append, htwice]

theorem firstOfEachName_append_right :
    firstOfEachName (ps ++ firstOfEachName qs) = firstOfEachName (ps ++ qs) := by
  rw [firstOfEachName_append, firstOfEachName_append]
  exact Sequences.addNew_addNew sameName_trans (firstOfEachName ps) [] qs

theorem firstOfEachName_append_self (h : (ps.map Property.name).Nodup) :
    firstOfEachName (ps ++ ps) = ps := by
  rw [firstOfEachName_append, firstOfEachName_of_nodup h]
  exact Sequences.addNew_of_any fun p hp => List.any_eq_true.mpr ⟨p, hp, beq_self_eq_true _⟩

end Firsts

namespace TypeGraph.Composed
variable {g : TypeGraph} {a b c : NodeId} {as bs cs : List Occurrence}

theorem grounded (h : g.Composed a as) : Grounded g.constituents a := by
  induction h with
  | object form distinct =>
      refine ⟨_, fun part hp => ?_⟩
      rw [constituents, form] at hp
      cases hp
  | function form =>
      refine ⟨_, fun part hp => ?_⟩
      rw [constituents, form] at hp
      cases hp
  | intersection form each ih =>
      exact ⟨_, fun m hm => ih m (constituents_of_intersection form ▸ hm)⟩
  | partialOf form of ih =>
      refine ⟨_, fun part hp => ?_⟩
      rw [constituents_of_partialOf form, List.mem_singleton] at hp
      exact hp ▸ ih

/-- The properties of a composed record are those of its leaves, the first of each name. -/
theorem properties_eq (h : g.Composed a as) :
    g.properties a = firstOfEachName (as.map Occurrence.listed) := by
  induction h with
  | @object id r form distinct =>
      have hlisted : (r.properties.map fun p => Occurrence.mk p false).map Occurrence.listed =
          r.properties := by
        rw [List.map_map]
        exact (List.map_congr_left fun p _ => Occurrence.listed_own p).trans (List.map_id _)
      rw [hlisted, firstOfEachName_of_nodup distinct, properties, depth, propertiesTo, form]
  | function form =>
      rw [properties, depth, propertiesTo, form]
      rfl
  | @intersection id members leaves form each ih =>
      rw [properties_of_intersection form fun m hm => (each m hm).grounded,
        List.flatMap_congr ih, firstOfEachName_flatMap, List.map_flatMap]
  | @partialOf id target leaves form of ih =>
      have hlisted : (leaves.map Occurrence.under).map Occurrence.listed =
          (leaves.map Occurrence.listed).map fun p => { p with optional := true } := by
        rw [List.map_map, List.map_map]
        exact List.map_congr_left fun o _ => o.listed_under
      rw [properties_of_partialOf form of.grounded, ih, hlisted, firstOfEachName_map]
      exact fun _ => rfl

theorem distinct (h : g.Composed a as) : ((g.properties a).map Property.name).Nodup := by
  rw [h.properties_eq]
  exact nodup_firstOfEachName _

theorem enumerates (h : g.Composed a as) : Enumerates (g.properties a) as where
  distinct := h.distinct
  order := by
    rw [h.properties_eq, names_firstOfEachName, List.map_map]
    rfl
  first p hp := by
    have hfound : (g.properties a).find? (·.name == p.name) = some p :=
      Sequences.find?_of_nodup Property.name h.distinct hp
    rw [h.properties_eq, find?_firstOfEachName, List.find?_map, Option.map_eq_some_iff] at hfound
    obtain ⟨o, ho, hlisted⟩ := hfound
    exact ⟨o, ho, hlisted.symm⟩

/-- An intersection of two records has the properties of both. -/
theorem properties_of_two (ha : g.Composed a as) (hb : g.Composed b bs) {ab : NodeId}
    (hab : g.form ab = .intersection [a, b]) :
    g.properties ab = firstOfEachName (g.properties a ++ g.properties b) := by
  have hgrounded : ∀ m ∈ [a, b], Grounded g.constituents m := by
    rw [List.forall_mem_cons, List.forall_mem_singleton]
    exact ⟨ha.grounded, hb.grounded⟩
  rw [properties_of_intersection hab hgrounded, List.flatMap_cons, List.flatMap_singleton]

/-- An intersection of two such records is one again. -/
theorem two (ha : g.Composed a as) (hb : g.Composed b bs) {ab : NodeId}
    (hab : g.form ab = .intersection [a, b]) : ∃ leaves, g.Composed ab leaves := by
  have heach : ∀ m ∈ [a, b], g.Composed m (if m = a then as else bs) := by
    rw [List.forall_mem_cons, List.forall_mem_singleton]
    refine ⟨by rwa [if_pos rfl], ?_⟩
    split
    · next heq => exact heq ▸ ha
    · exact hb
  exact ⟨_, .intersection hab heach⟩

end TypeGraph.Composed

open TypeGraph in
/-- How a record is composed shows in its properties only by its leaves, from left to right. -/
theorem grouping_does_not_show {g : TypeGraph} {a b c : NodeId} {as bs cs : List Occurrence}
    (ha : g.Composed a as) (hb : g.Composed b bs) (hc : g.Composed c cs) :
    Enumerates (g.properties a) as ∧
    (∀ other, g.Composed other as → g.properties other = g.properties a) ∧
    (∀ ab bc left right, g.form ab = .intersection [a, b] → g.form bc = .intersection [b, c] →
      g.form left = .intersection [ab, c] → g.form right = .intersection [a, bc] →
      g.properties left = g.properties right) ∧
    (∀ twice, g.form twice = .intersection [a, a] → g.properties twice = g.properties a) ∧
    (∀ ab whole pa pb members, g.form ab = .intersection [a, b] → g.form whole = .partialOf ab →
      g.form pa = .partialOf a → g.form pb = .partialOf b →
      g.form members = .intersection [pa, pb] → g.properties whole = g.properties members) ∧
    (∀ once twice, g.form once = .partialOf a → g.form twice = .partialOf once →
      g.properties twice = g.properties once) := by
  refine ⟨ha.enumerates, ?_, ?_, ?_, ?_, ?_⟩
  · intro other h
    rw [h.properties_eq, ha.properties_eq]
  · intro ab bc left right hab hbc hleft hright
    obtain ⟨_, hab'⟩ := ha.two hb hab
    obtain ⟨_, hbc'⟩ := hb.two hc hbc
    calc g.properties left
        = firstOfEachName (g.properties a ++ g.properties b ++ g.properties c) := by
          rw [hab'.properties_of_two hc hleft, ha.properties_of_two hb hab,
            firstOfEachName_append_left]
      _ = g.properties right := by
          rw [ha.properties_of_two hbc' hright, hb.properties_of_two hc hbc,
            firstOfEachName_append_right, List.append_assoc]
  · intro twice htwice
    rw [ha.properties_of_two ha htwice, firstOfEachName_append_self ha.distinct]
  · intro ab whole pa pb members hab hwhole hpa hpb hmembers
    obtain ⟨_, hab'⟩ := ha.two hb hab
    have hpa' := Composed.partialOf hpa ha
    have hpb' := Composed.partialOf hpb hb
    rw [properties_of_partialOf hwhole hab'.grounded, ha.properties_of_two hb hab,
      hpa'.properties_of_two hpb' hmembers, properties_of_partialOf hpa ha.grounded,
      properties_of_partialOf hpb hb.grounded, ← List.map_append, firstOfEachName_map]
    exact fun _ => rfl
  · intro once twice honce htwice
    rw [properties_of_partialOf htwice (Composed.partialOf honce ha).grounded,
      properties_of_partialOf honce ha.grounded, List.map_map]
    rfl

section Points
open TypeGraph

def coordinate (name : String) (line : Nat) : Property :=
  ⟨name, some numberId, false, some ⟨"P.tsx", line, 1⟩⟩

def pointLabel : Property := ⟨"label", some stringId, true, none⟩

def pointRecord : RecordType := ⟨some "Point", [coordinate "x" 1, pointLabel], none, [], []⟩

def offsetRecord : RecordType := ⟨some "Offset", [coordinate "y" 2, coordinate "x" 3], none, [], []⟩

/-- A point, an offset from it that may miss any coordinate, and a function;
what follows are their groupings. -/
def pointGraph : TypeGraph :=
  ⟨initial.nodes ++ #[
    ⟨.record pointRecord, none⟩, ⟨.record offsetRecord, none⟩, ⟨.function ⟨[], voidId, none⟩, none⟩,
    ⟨.partialOf 12, none⟩, ⟨.intersection [11, 14], none⟩,
    ⟨.intersection [15, 13], none⟩, ⟨.intersection [13, 14], none⟩,
    ⟨.intersection [16, 14], none⟩, ⟨.intersection [15, 17], none⟩,
    ⟨.intersection [15, 15], none⟩, ⟨.partialOf 16, none⟩, ⟨.partialOf 15, none⟩,
    ⟨.partialOf 13, none⟩, ⟨.intersection [22, 23], none⟩, ⟨.partialOf 22, none⟩]⟩

def pointLeaves : List Occurrence := [⟨coordinate "x" 1, false⟩, ⟨pointLabel, false⟩]

def offsetLeaves : List Occurrence := [⟨coordinate "y" 2, true⟩, ⟨coordinate "x" 3, true⟩]

theorem offset_composed : pointGraph.Composed 14 offsetLeaves :=
  have hform : pointGraph.form 14 = .partialOf 12 := rfl
  .partialOf hform (.object (r := offsetRecord) rfl (by decide))

theorem moved_point_composed : pointGraph.Composed 15 (pointLeaves ++ offsetLeaves) := by
  have hform : pointGraph.form 15 = .intersection [11, 14] := rfl
  have heach : ∀ m ∈ [11, 14],
      pointGraph.Composed m (if m = 11 then pointLeaves else offsetLeaves) := by
    rw [List.forall_mem_cons, List.forall_mem_singleton]
    exact ⟨.object (r := pointRecord) rfl (by decide), offset_composed⟩
  exact .intersection hform heach

theorem callback_composed : pointGraph.Composed 13 [] :=
  .function (f := ⟨[], voidId, none⟩) rfl

theorem points_grouped :
    Enumerates (pointGraph.properties 15) (pointLeaves ++ offsetLeaves) ∧
    pointGraph.properties 15 =
      [coordinate "x" 1, pointLabel, { coordinate "y" 2 with optional := true }] ∧
    pointGraph.properties 18 = pointGraph.properties 19 ∧
    pointGraph.properties 20 = pointGraph.properties 15 ∧
    pointGraph.properties 21 = pointGraph.properties 24 ∧
    pointGraph.properties 25 = pointGraph.properties 22 := by
  obtain ⟨hlists, -, hassoc, htwice, hpartial, hagain⟩ := grouping_does_not_show
    moved_point_composed callback_composed offset_composed
  exact ⟨hlists, by decide, hassoc 16 17 18 19 rfl rfl rfl rfl, htwice 20 rfl,
    hpartial 16 21 22 23 24 rfl rfl rfl rfl rfl, hagain 22 25 rfl rfl⟩

end Points

end PropSchema
