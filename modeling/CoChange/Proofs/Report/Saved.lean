import CoChange.Arithmetic
import CoChange.Proofs.Metrics.Document
import CoChange.Proofs.Yaml.Reader
import CoChange.Report.Saved

/-!
# Saved reports survive every chain of formats

A report in JSON, in YAML or in binary form is taken for what it is and read back as its metrics, if
their numbers fit their words and their floating point numbers are finite. For JSON the reader has
to read back what is written of these floating point numbers (`Json.FloatReader.ReadsBack`), which
is all that is asked of it.

* **`parse_json`**, **`parse_yaml`**, **`parse_binary`**: the metrics are read back from each form.
* **`parse_render`**: so from whatever form a report was saved in.
* **`relay_restores`**: so a report that is saved again and again, each time in another form, stays
  the same.
-/

namespace CoChange

open Binary (Bytes)

/-! ## What a text begins with -/

/-- The bytes of a text, character by character. -/
theorem toList_toUTF8 (s : String) : s.toUTF8.toList = s.toList.flatMap String.utf8EncodeChar := by
  conv => lhs; rw [← String.ofList_toList (s := s)]
  rw [toList_byteArray, String.toUTF8_eq_toByteArray, String.toByteArray_ofList]
  exact List.toList_data_toByteArray

/-- A text is taken for no binary report if it begins with another byte. -/
theorem Metrics.hasMagic_text {s : String} {c : Char} {cs : List Char} {b : UInt8} {bs : Bytes}
    (hs : s.toList = c :: cs) (hc : String.utf8EncodeChar c = b :: bs) (hb : b ≠ 0x53) :
    hasMagic s.toUTF8.toList = false := by
  have hmagic : magic = [0x53, 0x48, 0x4F, 0x54] := by
    rw [magic, toList_toUTF8]
    rfl
  rw [toList_toUTF8, hs, List.flatMap_cons, hc, hasMagic, hmagic]
  simp [List.isPrefixOf, Ne.symm hb]

namespace Report

variable {floats : Json.FloatReader}

/-! ## Documents as texts -/

/-- A text that is no binary report is read as a document. -/
theorem Saved.parseUsing_text {s : String} {v : Json.Value} {m : Metrics}
    (hmagic : Metrics.hasMagic s.toUTF8.toList = false)
    (hdocument : Json.parseUsing floats Json.maxDepth s = .ok v ∨
      ((∃ e, Json.parseUsing floats Json.maxDepth s = .error e) ∧ Yaml.parse s = .ok v))
    (hmetrics : Metrics.decoder v.normalize = .ok m) :
    parseUsing floats s.toUTF8.toList = .ok (.metrics m) := by
  have hparse : parseDocument floats s.toUTF8.toList = .ok v.normalize := by
    rw [parseDocument, fromUTF8?_toUTF8]
    rcases hdocument with hjson | ⟨⟨e, hjson⟩, hyaml⟩
    · simp only [hjson]
    · simp only [hjson, hyaml]
  rw [parseUsing, hmagic, if_neg Bool.false_ne_true, hparse, ok_bind]
  simp only [hmetrics]
  rfl

/-- A document in JSON is read back with the line break behind it. -/
theorem parseUsing_prettyLine {v : Json.Value} (hread : v.Readable floats)
    (hdepth : v.depth ≤ Json.maxDepth) :
    Json.parseUsing floats Json.maxDepth (v.pretty ++ "\n") = .ok v := by
  have hend : Json.Delimits ['\n'] := Json.delimits_of_head (by decide) []
  have hvalue := Json.readValue_pretty v hread hdepth 0 hend
  have htext : (v.pretty ++ "\n").toList = (v.prettyAt 0).toList ++ ['\n'] := String.toList_append
  rw [Json.parseUsing, htext, ((Json.begins_prettyAt hread 0).append _).skipBlanks, hvalue]
  rfl

/-! ## The forms of a report -/

namespace Saved

variable {m : Metrics}

/-- A report in JSON is read back, if the reader rounds every float of it back: what begins with a
brace is no envelope, and its members are those of metrics. -/
theorem parse_json (hf : m.Fits) (hfinite : ∀ x ∈ m.floats, x.isFinite = true)
    (hreads : ∀ x ∈ m.floats, floats.ReadsBack x) :
    parseUsing floats (m.document.render .json).toUTF8.toList = .ok (.metrics m) := by
  have hlegible := Metrics.legible_toJson hf hfinite
  have hreadable : m.toJson.Readable floats :=
    Json.Value.Legible.readable _ hlegible (m.floats_toJson ▸ hreads)
  have htext : ∃ cs, (m.toJson.pretty ++ "\n").toList = '\x7b' :: cs := by
    rw [String.toList_append, Json.Value.pretty, Metrics.toJson, Json.Value.prettyAt,
      Json.Value.prettyMembers, Json.toList_block_cons]
    exact ⟨_, rfl⟩
  obtain ⟨cs, hcs⟩ := htext
  exact parseUsing_text (Metrics.hasMagic_text hcs rfl (by decide))
    (Or.inl (parseUsing_prettyLine hreadable (Nat.le_trans m.depth_toJson (by decide))))
    (Metrics.decoder_normalize hf)

/-- A report in YAML is read back. It is no envelope and no JSON, as it begins with a letter. -/
theorem parse_yaml (hf : m.Fits) (hfinite : ∀ x ∈ m.floats, x.isFinite = true) :
    parseUsing floats (m.document.render .yaml).toUTF8.toList = .ok (.metrics m) := by
  have hlegible := Metrics.legible_toJson hf hfinite
  have hname : "node_hotness".toList = 'n' :: 'o' :: "de_hotness".toList := by decide
  -- the first name begins with what could only be `null` in a JSON document, and is not
  have htext : ∃ cs, (Yaml.Value.ofJson m.toJson).render.toList = 'n' :: 'o' :: cs := by
    rw [Metrics.toJson] at hlegible ⊢
    rw [Yaml.toList_render rfl, Yaml.Lexer.block_object (Json.Value.legibleMembers_iff.mp hlegible _
      List.mem_cons_self).1]
    exact ⟨"de_hotness".toList ++ _, congrArg (· ++ _) hname⟩
  obtain ⟨cs, hcs⟩ := htext
  have hjson : ∃ e,
      Json.parseUsing floats Json.maxDepth (Yaml.Value.ofJson m.toJson).render = .error e := by
    refine ⟨Json.unexpected ('n' :: 'o' :: cs), ?_⟩
    rw [Json.parseUsing, hcs]
    unfold Json.readValue
    rfl
  exact parseUsing_text (Metrics.hasMagic_text hcs rfl (by decide))
    (Or.inr ⟨hjson, Yaml.parse_render hlegible (Nat.le_trans m.depth_toJson (by decide))⟩)
    (Metrics.decoder_normalize hf)

/-- A report in binary form is read back: it begins with the sign of an envelope, so no other form
is tried. -/
theorem parse_binary (hf : m.Fits) : parseUsing floats m.toBinary = .ok (.metrics m) := by
  have hmagic : Metrics.hasMagic (m.toBinary ++ []) = true := Metrics.hasMagic_toBinaryOf _ m []
  have hread : Metrics.ofBinary (m.toBinary ++ []) = .ok m :=
    Metrics.ofBinary_whole hf (by decide) []
  rw [List.append_nil] at hmagic hread
  rw [parseUsing, if_pos hmagic, hread]
  rfl

/-- **A report is read back from whatever form it was saved in.** The cases are the three forms,
each of which is mistaken for none that is tried before it. -/
theorem parse_render (hf : m.Fits) (hfinite : ∀ x ∈ m.floats, x.isFinite = true)
    (hreads : ∀ x ∈ m.floats, floats.ReadsBack x) {format : OutputFormat}
    (hformat : format ∈ [OutputFormat.json, .yaml, .binary]) (o : TextOptions) :
    parseUsing floats (Report.render format o m).bytes = .ok (.metrics m) := by
  cases format with
  | text => exact absurd hformat (by decide)
  | json => exact parse_json hf hfinite hreads
  | yaml => exact parse_yaml hf hfinite
  | binary => exact parse_binary hf

/-! ## Chains of forms -/

/-- Saves a report again and again: each file is read and written in the next form. The outcome is
what was read from each file, from the last one, too, and the last file. -/
def relay (floats : Json.FloatReader) (bytes : Bytes) :
    List (OutputFormat × TextOptions) → Except EngineError (List Saved × Bytes)
  | [] => do
    let saved ← parseUsing floats bytes
    return ([saved], bytes)
  | (format, o) :: hops => do
    let saved ← parseUsing floats bytes
    let (more, last) ← relay floats (saved.render format o).bytes hops
    return (saved :: more, last)

/-- **A report survives every chain of forms**: from each file the metrics are read back, never just
any document, and the last file is the one that the metrics give in the last form. Of the rounding
of numbers in JSON it is assumed that it reads back what is written of the floating point numbers of
this report. -/
theorem relay_restores (hf : m.Fits) (hfinite : ∀ x ∈ m.floats, x.isFinite = true)
    (hreads : ∀ x ∈ m.floats, floats.ReadsBack x) (first : OutputFormat × TextOptions)
    (hops : List (OutputFormat × TextOptions))
    (hformats : ∀ hop ∈ first :: hops, hop.1 ∈ [OutputFormat.json, .yaml, .binary]) :
    relay floats (Report.render first.1 first.2 m).bytes hops =
      .ok (List.replicate (hops.length + 1) (.metrics m),
        (Report.render ((first :: hops).getLast (List.cons_ne_nil _ _)).1
          ((first :: hops).getLast (List.cons_ne_nil _ _)).2 m).bytes) := by
  induction hops generalizing first with
  | nil =>
    rw [relay, parse_render hf hfinite hreads (hformats first List.mem_cons_self), ok_bind]
    rfl
  | cons hop hops ih =>
    -- what is read are the metrics, so the next file is their report in the next form
    have hnext := ih hop fun next hmem => hformats next (List.mem_cons_of_mem _ hmem)
    rw [relay, parse_render hf hfinite hreads (hformats first List.mem_cons_self), ok_bind,
      Saved.render, hnext, ok_bind]
    rfl

end Saved

namespace Sample

/-- Metrics with names that look like marks, numbers and several lines, and with numbers at the
borders of what can be written. -/
def awkward : Metrics where
  hotness := [⟨⟨"- item", "null", "C:\\a: b #c"⟩, 12, 1, .ofRatio false 1 3⟩,
    ⟨⟨"0x10", "\ttab\x07", ""⟩, 0, 0, ⟨1⟩⟩]
  couplings := [⟨⟨"größe\n\n", " two\nlines"⟩, ⟨"...\n", "1_000"⟩, 3, .zero true⟩]
  hotspots := [⟨⟨"'quoted'", "~", "\u2028"⟩, 18446744073709551615, .high⟩]
  totals := ⟨3, 24, 1, .ofRatio false 24 3, .ofRatio true (10 ^ 300) 1, 2⟩

end Sample

/-- The reader that the program uses rounds the numbers of this report back. -/
theorem relay_restores_awkward :
    (∀ x ∈ Sample.awkward.floats, x.isFinite = true) ∧
    (∀ x ∈ Sample.awkward.floats, Json.FloatReader.stepwise.ReadsBack x) ∧
    Saved.relay .stepwise (Report.render .yaml ⟨10, true⟩ Sample.awkward).bytes
        [(.json, ⟨5, false⟩), (.yaml, ⟨5, false⟩), (.binary, ⟨0, true⟩), (.json, ⟨5, false⟩)] =
      .ok (List.replicate 5 (.metrics Sample.awkward),
        (Report.render .json ⟨5, false⟩ Sample.awkward).bytes) := by
  have hfits : Sample.awkward.Fits := by decide +kernel
  have hfinite : ∀ x ∈ Sample.awkward.floats, x.isFinite = true := by decide +kernel
  have hreads : ∀ x ∈ Sample.awkward.floats, Json.FloatReader.stepwise.ReadsBack x := by
    decide +kernel
  exact ⟨hfinite, hreads,
    Saved.relay_restores hfits hfinite hreads (.yaml, ⟨10, true⟩) _ (by decide)⟩

end Report

end CoChange
