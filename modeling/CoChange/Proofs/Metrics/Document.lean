import CoChange.Arithmetic
import CoChange.Metrics.Json
import CoChange.Proofs.Binary.Envelope
import CoChange.Proofs.Checkpoint.Metadata
import CoChange.Proofs.Json.Address
import CoChange.Proofs.SortedMap
import CoChange.Proofs.Yaml.Structure

/-!
# Metrics are read back from their document

Metrics whose numbers fit their words and whose floating point numbers are finite are read back from
their document, in whatever order the members of its objects stand:

* **`Json.FieldReader.required_sorted`**: a field is found among sorted members.
* **`Metrics.decoder_normalize`**: the metrics are read back from the sorted document.
* **`Metrics.legible_toJson`**: the document is one that both formats read back, JSON if the
  floating point numbers are rounded back, which are those of the metrics
  (**`Metrics.floats_toJson`**).
-/

namespace CoChange

open Json (Value Decoder FieldReader FieldSource)

namespace Json

/-- A field can be read, in whatever way. -/
def FieldSource.Has (source : FieldSource) (name : String) (v : Value) : Prop :=
  ∀ {α : Type} {decode : Decoder α} {a : α}, decode v = .ok a →
    FieldReader.required name decode source = .ok (a, source)

/-- **A record is read back from its sorted document**, if that has each of its fields once. Sorting
puts members in the order of their names and loses none, and each field is found by its name. -/
theorem FieldReader.record_normalize {α : Type} {fields : FieldReader α}
    {members : List (String × Value)} {a : α} (hnames : (members.map (·.1)).Nodup)
    (h : ∀ source : FieldSource, (∀ e ∈ members, source.Has e.1 e.2.normalize) →
      fields source = .ok (a, source)) :
    record fields (Value.object members).normalize = .ok a := by
  have hkeys : ((Value.normalizeMembers members).map (·.1)).Nodup := by
    rw [Value.normalizeMembers_eq, List.map_map]
    exact hnames
  have hread :=
    h (.named (SortedMap.ofList (Value.normalizeMembers members)).toList) fun e he _ _ _ hv =>
    required_named (SortedMap.filter_key ((SortedMap.get?_ofList_eq_some_iff hkeys).mpr
      (Value.normalizeMembers_eq members ▸ List.mem_map_of_mem he))) hv
  rw [Value.normalize, record, StateT.run, hread]
  rfl

/-- A list is read back from the sorted documents of its items. -/
theorem Decoder.list_normalize {α : Type} {decode : Decoder α} {toJson : α → Value} {as : List α}
    (h : ∀ a ∈ as, decode (toJson a).normalize = .ok a) :
    Decoder.list decode (Value.array (as.map toJson)).normalize = .ok as := by
  have hitems : ∀ {as : List α}, (∀ a ∈ as, decode (toJson a).normalize = .ok a) →
      (Value.normalizeItems (as.map toJson)).mapM decode = .ok as := by
    intro as
    induction as with
    | nil => exact fun _ => rfl
    | cons a as ih =>
      intro h
      rw [List.forall_mem_cons] at h
      rw [List.map_cons, Value.normalizeItems, List.mapM_cons, h.1, ok_bind, ih h.2, ok_bind]
      rfl
  exact hitems h

theorem Decoder.string_string (s : String) : Decoder.string (.string s) = .ok s := rfl

theorem Decoder.float_float (x : Binary64) : Decoder.float (.number (.float x)) = .ok x := rfl

theorem Decoder.nat_nat {n : Nat} (h : n < UInt64.size) : Decoder.nat (.nat n) = .ok n :=
  natBelow_nat h

end Json

/-! ## Decoding -/

open Json.Decoder (string_string float_float nat_nat)

/-- A row of hotness is decoded back from its document, once members are in the order of their
names. -/
theorem Hotness.decoder_normalize {h : Hotness} (hf : h.Fits) :
    decoder h.toJson.normalize = .ok h := by
  rw [decoder, toJson]
  refine FieldReader.record_normalize
    (by decide : (["name", "type", "file", "change_count", "coupled_nodes", "hotness_score"] : List
      String).Nodup)
    fun source hsource => ?_
  simp only [List.forall_mem_cons] at hsource
  obtain ⟨hname, hkind, hfile, hchanges, hpeers, hscore, -⟩ := hsource
  rw [bind_of_ok (hname (string_string _)), bind_of_ok (hkind (string_string _)),
    bind_of_ok (hfile (string_string _)), bind_of_ok (hchanges (nat_nat hf.changes)),
    bind_of_ok (hpeers (nat_nat hf.peers)), bind_of_ok (hscore (float_float _))]
  rfl

/-- A row of coupling is decoded back from its document, once members are in the order of their
names. -/
theorem Coupling.decoder_normalize {c : Coupling} (hf : c.Fits) :
    decoder c.toJson.normalize = .ok c := by
  rw [decoder, toJson]
  refine FieldReader.record_normalize
    (by decide : (["node1_name", "node1_file", "node2_name", "node2_file",
    "co_changes", "coupling_strength"] : List String).Nodup) fun source hsource => ?_
  simp only [List.forall_mem_cons] at hsource
  obtain ⟨hfirstName, hfirstFile, hsecondName, hsecondFile, hchanges, hstrength, -⟩ := hsource
  rw [bind_of_ok (hfirstName (string_string _)), bind_of_ok (hfirstFile (string_string _)),
    bind_of_ok (hsecondName (string_string _)), bind_of_ok (hsecondFile (string_string _)),
    bind_of_ok (hchanges (nat_nat hf.changes)), bind_of_ok (hstrength (float_float _))]
  rfl

/-- A risk is read back from its label. -/
theorem Risk.oneOf_label (r : Risk) :
    Decoder.oneOf ([Risk.low, .medium, .high].map fun r => (r.label, r)) (.string r.label) =
      .ok r := by
  cases r <;> rfl

/-- A row of hotspots is decoded back from its document, once members are in the order of their
names. -/
theorem Hotspot.decoder_normalize {h : Hotspot} (hf : h.Fits) :
    decoder h.toJson.normalize = .ok h := by
  rw [decoder, toJson]
  refine FieldReader.record_normalize
    (by decide : (["name", "type", "file", "change_count", "risk_level"] : List String).Nodup)
      fun source hsource => ?_
  simp only [List.forall_mem_cons] at hsource
  obtain ⟨hname, hkind, hfile, hchanges, hrisk, -⟩ := hsource
  rw [bind_of_ok (hname (string_string _)), bind_of_ok (hkind (string_string _)),
    bind_of_ok (hfile (string_string _)), bind_of_ok (hchanges (nat_nat hf.changes)),
    bind_of_ok (hrisk (Risk.oneOf_label _))]
  rfl

/-- Totals are decoded back from their document, once members are in the order of their names. -/
theorem Totals.decoder_normalize {t : Totals} (hf : t.Fits) :
    decoder t.toJson.normalize = .ok t := by
  rw [decoder, toJson]
  refine FieldReader.record_normalize
    (by decide : (["total_nodes", "total_changes", "total_couplings",
    "avg_changes_per_node", "avg_coupling_strength", "hot_nodes"] : List String).Nodup)
      fun source hsource => ?_
  simp only [List.forall_mem_cons] at hsource
  obtain ⟨hunits, hchanges, hcouplings, haverage, hstrength, hhot, -⟩ := hsource
  rw [bind_of_ok (hunits (nat_nat hf.units)), bind_of_ok (hchanges (nat_nat hf.changes)),
    bind_of_ok (hcouplings (nat_nat hf.couplings)), bind_of_ok (haverage (float_float _)),
    bind_of_ok (hstrength (float_float _)), bind_of_ok (hhot (nat_nat hf.hotUnits))]
  rfl

/-- **Metrics are read back from their sorted document.** The rows of the three lists are decoded
one by one, and then the totals. -/
theorem Metrics.decoder_normalize {m : Metrics} (hf : m.Fits) :
    decoder m.toJson.normalize = .ok m := by
  rw [decoder, toJson]
  refine FieldReader.record_normalize
    (by decide : (["node_hotness", "node_coupling", "hotspot_nodes", "aggregate"] : List
      String).Nodup)
    fun source hsource => ?_
  simp only [List.forall_mem_cons] at hsource
  obtain ⟨hhotness, hcouplings, hhotspots, htotals, -⟩ := hsource
  rw [bind_of_ok
    (hhotness (Decoder.list_normalize fun h hh => Hotness.decoder_normalize (hf.hotness h hh))),
    bind_of_ok (hcouplings
      (Decoder.list_normalize fun c hc => Coupling.decoder_normalize (hf.couplings c hc))),
    bind_of_ok
      (hhotspots (Decoder.list_normalize fun h hh => Hotspot.decoder_normalize (hf.hotspots h hh))),
    bind_of_ok (htotals (Totals.decoder_normalize hf.totals))]
  rfl

/-! ## Legible documents -/

section Legible

open Yaml (PlainName)

/-- The names of all fields of metrics. -/
def Metrics.fieldNames : List String :=
  ["node_hotness", "node_coupling",
    "hotspot_nodes", "aggregate", "name", "type", "file", "change_count",
    "coupled_nodes", "hotness_score",
    "node1_name", "node1_file", "node2_name", "node2_file", "co_changes",
    "coupling_strength", "risk_level",
    "total_nodes", "total_changes", "total_couplings", "avg_changes_per_node",
    "avg_coupling_strength", "hot_nodes"]

theorem Metrics.plainName_fieldNames : ∀ name ∈ fieldNames, PlainName name := by
  decide +kernel

/-- A record of metrics is legible if the values of its fields are. -/
theorem legible_record {members : List (String × Value)}
    (hnames : ∀ e ∈ members, e.1 ∈ Metrics.fieldNames)
    (hvalues : ∀ e ∈ members, e.2.Legible) : (Value.object members).Legible :=
  Value.legibleMembers_iff.mpr fun e he =>
    ⟨Metrics.plainName_fieldNames _ (hnames e he), hvalues e he⟩

theorem legible_nat {n : Nat} (h : n < UInt64.size) : (Value.nat n).Legible :=
  ⟨Int.natCast_nonneg n, Int.ofNat_lt.mpr h⟩

theorem legible_list {α : Type} {toJson : α → Value} {as : List α}
    (h : ∀ a ∈ as, (toJson a).Legible) :
    (Value.array (as.map toJson)).Legible :=
  Value.legibleItems_iff.mpr (List.forall_mem_map.mpr h)

/-- The document of a row of hotness is legible if the score is finite, since then it is written as
a number. -/
theorem Hotness.legible_toJson {h : Hotness} (hf : h.Fits) (hscore : h.score.isFinite = true) :
    h.toJson.Legible := by
  rw [toJson]
  refine legible_record (by simp [Metrics.fieldNames]) ?_
  simp only [List.forall_mem_cons, List.not_mem_nil, false_imp_iff, implies_true, and_true]
  exact ⟨trivial, trivial, trivial, legible_nat hf.changes, legible_nat hf.peers, hscore⟩

/-- The document of a row of coupling is legible if the strength is finite, since then it is written
as a number. -/
theorem Coupling.legible_toJson {c : Coupling} (hf : c.Fits)
    (hstrength : c.strength.isFinite = true) :
    c.toJson.Legible := by
  rw [toJson]
  refine legible_record (by simp [Metrics.fieldNames]) ?_
  simp only [List.forall_mem_cons, List.not_mem_nil, false_imp_iff, implies_true, and_true]
  exact ⟨trivial, trivial, trivial, trivial, legible_nat hf.changes, hstrength⟩

theorem Hotspot.legible_toJson {h : Hotspot} (hf : h.Fits) : h.toJson.Legible := by
  rw [toJson]
  refine legible_record (by simp [Metrics.fieldNames]) ?_
  simp only [List.forall_mem_cons, List.not_mem_nil, false_imp_iff, implies_true, and_true]
  exact ⟨trivial, trivial, trivial, legible_nat hf.changes, trivial⟩

/-- The document of totals is legible if the two averages are finite, since then both are written as
numbers. -/
theorem Totals.legible_toJson {t : Totals} (hf : t.Fits)
    (haverage : t.changesPerUnit.isFinite = true)
    (hstrength : t.averageStrength.isFinite = true) : t.toJson.Legible := by
  rw [toJson]
  refine legible_record (by simp [Metrics.fieldNames]) ?_
  simp only [List.forall_mem_cons, List.not_mem_nil, false_imp_iff, implies_true, and_true]
  exact ⟨legible_nat hf.units, legible_nat hf.changes,
    legible_nat hf.couplings, haverage, hstrength,
    legible_nat hf.hotUnits⟩

/-- **The document of metrics is legible**, if their floating point numbers are finite. Names and
files may be any texts; what is not finite would be written as a word. -/
theorem Metrics.legible_toJson {m : Metrics} (hf : m.Fits)
    (hfinite : ∀ x ∈ m.floats, x.isFinite = true) :
    m.toJson.Legible := by
  simp only [floats, List.forall_mem_append, List.forall_mem_map, List.forall_mem_cons] at hfinite
  obtain ⟨⟨hscores, hstrengths⟩, haverage, hstrength, -⟩ := hfinite
  rw [toJson]
  refine legible_record (by simp [Metrics.fieldNames]) ?_
  simp only [List.forall_mem_cons, List.not_mem_nil, false_imp_iff, implies_true, and_true]
  exact ⟨legible_list fun h hh => Hotness.legible_toJson (hf.hotness h hh) (hscores h hh),
    legible_list fun c hc => Coupling.legible_toJson (hf.couplings c hc) (hstrengths c hc),
    legible_list fun h hh => Hotspot.legible_toJson (hf.hotspots h hh),
    Totals.legible_toJson hf.totals haverage hstrength⟩

end Legible

/-! ## The floating point numbers of the document -/

/-- A list of records has the floating point numbers that its records have. -/
theorem floats_list {α : Type} (toJson : α → Value) (as : List α) :
    (Value.array (as.map toJson)).floats = as.flatMap fun a => (toJson a).floats := by
  have hitems (as : List α) :
      Value.floatsItems (as.map toJson) = as.flatMap fun a => (toJson a).floats := by
    induction as with
    | nil => rfl
    | cons a as ih => rw [List.map_cons, Value.floatsItems, ih, List.flatMap_cons]
  rw [Value.floats, hitems]

/-- **The floating point numbers in the document of metrics are those of the metrics.** They come in
the order of the document: scores, strengths, and the two averages. -/
theorem Metrics.floats_toJson (m : Metrics) : m.toJson.floats = m.floats := by
  have hhotness : (Value.array (m.hotness.map Hotness.toJson)).floats = m.hotness.map (·.score) :=
    (floats_list _ _).trans List.map_eq_flatMap.symm
  have hcouplings : (Value.array (m.couplings.map Coupling.toJson)).floats =
      m.couplings.map (·.strength) := (floats_list _ _).trans List.map_eq_flatMap.symm
  have hhotspots : (Value.array (m.hotspots.map Hotspot.toJson)).floats = [] :=
    (floats_list _ _).trans (List.flatMap_eq_nil_iff.mpr fun _ _ => rfl)
  have htotals : m.totals.toJson.floats = [m.totals.changesPerUnit, m.totals.averageStrength] := rfl
  rw [toJson, Value.floats]
  simp only [Value.floatsMembers, hhotness, hcouplings, hhotspots, htotals, floats, List.nil_append,
    List.append_nil, List.append_assoc]

/-- A list of documents is as deep as the deepest of them allows for. -/
theorem depthItems_map_le {α : Type} {toJson : α → Value} {k : Nat} {as : List α}
    (h : ∀ a ∈ as, (toJson a).depth ≤ k) :
    Value.depthItems (as.map toJson) ≤ k := by
  induction as with
  | nil => exact Nat.zero_le k
  | cons a as ih =>
    rw [List.forall_mem_cons] at h
    rw [List.map_cons, Value.depthItems]
    exact Nat.max_le.mpr ⟨h.1, ih h.2⟩

/-- The document of metrics is not nested deeply. -/
theorem Metrics.depth_toJson (m : Metrics) : m.toJson.depth ≤ 4 := by
  have hhotness : Value.depthItems (m.hotness.map Hotness.toJson) ≤ 2 :=
    depthItems_map_le fun _ _ => Nat.le_refl 2
  have hcouplings : Value.depthItems (m.couplings.map Coupling.toJson) ≤ 2 :=
    depthItems_map_le fun _ _ => Nat.le_refl 2
  have hhotspots : Value.depthItems (m.hotspots.map Hotspot.toJson) ≤ 2 :=
    depthItems_map_le fun _ _ => Nat.le_refl 2
  have htotals : m.totals.toJson.depth = 2 := rfl
  simp only [toJson, Value.depth, Value.depthMembers, htotals]
  omega

end CoChange
