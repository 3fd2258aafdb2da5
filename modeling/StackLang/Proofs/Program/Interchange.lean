import StackLang.Program.Interchange
import StackLang.Proofs.Json.RoundTrip

/-!
# Programs survive the hand-off

Every part of a program is decoded from the value it is encoded as, and all these values are plain
(`Json.Plain`), so their texts are read back. Jumps and rows are written as integers of 64 bits, so
they have to be such integers (`Program.Fits`). Nothing else is asked of a program: it may hold any
opcodes, whatever literals and jumps they come with.

**Theorem (`Program.ofJson?_read?_text`).** A program that fits is read back from its text.
-/

namespace StackLang

namespace Json

/-! ## Fields and kinds -/

theorem filter_key {α : Type} {members : List (String × α)} (h : (members.map (·.1)).Nodup)
    {m : String × α} (hm : m ∈ members) : members.filter (·.1 = m.1) = [m] := by
  induction members with
  | nil => cases hm
  | cons a rest ih =>
    obtain ⟨ha, hrest⟩ := List.nodup_cons.1 h
    rcases List.mem_cons.1 hm with rfl | hm
    · have hnone : rest.filter (·.1 = m.1) = [] :=
        List.filter_eq_nil_iff.2 fun b hb hkey =>
          ha (List.mem_map.2 ⟨b, hb, of_decide_eq_true hkey⟩)
      rw [List.filter_cons_of_pos (by simp), hnone]
    · have hne : a.1 ≠ m.1 := fun hkey => ha (List.mem_map.2 ⟨m, hm, hkey.symm⟩)
      rw [List.filter_cons_of_neg (by simpa using hne), ih hrest hm]

/-- A list is decoded if its items are. -/
theorem mapM_map {α β γ : Type} {f : β → Option γ} {g : α → β} {h : α → γ} {items : List α}
    (hf : ∀ a ∈ items, f (g a) = some (h a)) :
    (items.map g).mapM f = some (items.map h) := by
  induction items with
  | nil => rfl
  | cons a rest ih =>
    obtain ⟨ha, hrest⟩ := List.forall_mem_cons.1 hf
    simp [ha, ih hrest]

/-- **The fields of a record are found**, under names that differ. -/
theorem fields?_ofMembers (members : List (String × Json)) (h : (members.map (·.1)).Nodup) :
    fields? (members.map (·.1)) (ofMembers members) = some (members.map (some ·.2)) := by
  have hnamed : (members.map fun m => (codes m.1, m.2)).mapM
      (fun m => (text? m.1).map (·, m.2)) = some (members.map id) :=
    mapM_map fun m _ => by simp [text?_codes]
  rw [List.map_id] at hnamed
  simp only [fields?, ofMembers, hnamed, Option.bind_eq_bind, Option.bind_some]
  exact mapM_map fun m hm => by rw [filter_key h hm]

theorem variant?_ofMembers (kind : String) (v : Json) :
    variant? (ofMembers [(kind, v)]) = some (kind, v) := by
  simp [variant?, ofMembers, text?_codes]

/-! ## Leaves -/

theorem toText?_ofText (text : String) : (ofText text).toText? = some text :=
  text?_codes text

/-- Zero is written without a sign, so no integer is written as a negative zero. -/
theorem toInt?_ofInt (v : Int) : (ofInt v).toInt? = some v := by
  have hne : Decimal.text v ≠ ['-', '0'] := by
    intro hzero
    have hread := Decimal.read?_text v
    rw [hzero, show Decimal.read? ['-', '0'] = some 0 by decide] at hread
    cases hread
    exact absurd hzero (by decide)
  rw [ofInt, toInt?, integer?, if_neg hne, Decimal.read?_text]

theorem toInt64?_ofInt (v : Int64) : (ofInt v.toInt).toInt64? = some v := by
  rw [toInt64?, toInt?_ofInt, Option.bind_some, Decimal.int64?_toInt]

theorem toNat?_ofInt {n : Nat} (h : n < UInt64.size) : (ofInt n).toNat? = some n := by
  rw [toNat?, toInt?_ofInt, Option.bind_some, if_pos ⟨Int.natCast_nonneg n, h⟩, Int.toNat_natCast]

/-- An optional field is decoded if no value is encoded as `null`. -/
theorem toOption?_ofOption {α : Type} {encode : α → Json} {decode : Json → Option α}
    {o : Option α} (hnull : ∀ a, encode a ≠ .leaf .null)
    (h : ∀ a ∈ o, decode (encode a) = some a) :
    toOption? decode (some (ofOption encode o)) = some o := by
  cases o with
  | none => rfl
  | some a =>
    rw [ofOption, toOption?, h a rfl]
    · rfl
    · exact hnull a

/-! ## Plain values -/

theorem plain_ofText (text : String) : (ofText text).Plain := by
  simpa [Plain, ofText, lexemes] using Leaf.plain_codes text

theorem plain_ofInt (v : Int) : (ofInt v).Plain := by
  simpa [Plain, ofInt, lexemes] using Leaf.plain_text v

theorem plain_ofOption {α : Type} {encode : α → Json} (h : ∀ a, (encode a).Plain) (o : Option α) :
    (ofOption encode o).Plain := by
  cases o with
  | none => simp [Plain, ofOption, lexemes, Leaf.Plain]
  | some a => exact h a

theorem plain_ofMembers {members : List (String × Json)} (h : ∀ m ∈ members, m.2.Plain) :
    (ofMembers members).Plain := by
  refine plain_object.2 fun written hwritten => ?_
  obtain ⟨m, hm, rfl⟩ := List.mem_map.1 hwritten
  exact ⟨Leaf.plain_codes m.1, h m hm⟩

end Json

/-! ## Parts of a program -/

/-- The jump and the row of an operation are integers of 64 bits. -/
structure Operation.Fits (op : Operation) : Prop where
  jump : ∀ target ∈ op.jump, target < UInt64.size
  row : op.location.row < UInt64.size

/-- All jumps and rows of a program are integers of 64 bits. -/
def Program.Fits (p : Program) : Prop :=
  ∀ op ∈ p.operations, op.Fits

theorem Location.ofJson?_toJson {l : Location} (h : l.row < UInt64.size) :
    Location.ofJson? l.toJson = some l := by
  have hfields := Json.fields?_ofMembers
    [("file", .ofText l.file), ("row", .ofInt l.row)] (by simp)
  simp only [List.map_cons, List.map_nil] at hfields
  simp [toJson, ofJson?, hfields, Json.toText?_ofText, Json.toNat?_ofInt h]

theorem Opcode.ofJson?_toJson (o : Opcode) : Opcode.ofJson? o.toJson = some o := by
  rw [ofJson?, toJson, Json.toText?_ofText]
  exact ofTag?_tag o

theorem Immediate.ofJson?_toJson (i : Immediate) : Immediate.ofJson? i.toJson = some i := by
  cases i with
  | int value => simp [toJson, ofJson?, Json.variant?_ofMembers, Json.toInt64?_ofInt]
  | str text => simp [toJson, ofJson?, Json.variant?_ofMembers, Json.toText?_ofText]

/-- **An operation that fits is decoded from its value.** -/
theorem Operation.ofJson?_toJson {op : Operation} (h : op.Fits) :
    Operation.ofJson? op.toJson = some op := by
  have hfields := Json.fields?_ofMembers
    [("opcode", op.opcode.toJson), ("immediate", .ofOption Immediate.toJson op.immediate),
      ("jump", .ofOption (fun target : Nat => .ofInt target) op.jump),
      ("location", op.location.toJson)] (by simp)
  have himmediate : Json.toOption? Immediate.ofJson?
      (some (.ofOption Immediate.toJson op.immediate)) = some op.immediate :=
    Json.toOption?_ofOption (fun i => by cases i <;> nofun) fun i _ => i.ofJson?_toJson
  have hjump : Json.toOption? Json.toNat?
      (some (.ofOption (fun target : Nat => .ofInt target) op.jump)) = some op.jump :=
    Json.toOption?_ofOption nofun fun target ht => Json.toNat?_ofInt (h.jump target ht)
  simp only [List.map_cons, List.map_nil] at hfields
  simp [toJson, ofJson?, hfields, himmediate, hjump, Opcode.ofJson?_toJson,
    Location.ofJson?_toJson h.row]

/-- **A program that fits is decoded from its value.** -/
theorem Program.ofJson?_toJson {p : Program} (h : p.Fits) : Program.ofJson? p.toJson = some p := by
  have hfields := Json.fields?_ofMembers
    [("operations", .array (p.operations.toList.map Operation.toJson))] (by simp)
  have hops : (p.operations.toList.map Operation.toJson).mapM Operation.ofJson? =
      some (p.operations.toList.map id) :=
    Json.mapM_map fun op hop => Operation.ofJson?_toJson (h op (Array.mem_toList_iff.1 hop))
  simp only [List.map_cons, List.map_nil] at hfields
  simp [toJson, ofJson?, hfields, hops]

/-! ## Plain programs -/

theorem Location.plain_toJson (l : Location) : l.toJson.Plain := by
  refine Json.plain_ofMembers ?_
  simp [Json.plain_ofText, Json.plain_ofInt]

theorem Immediate.plain_toJson (i : Immediate) : i.toJson.Plain := by
  cases i <;> refine Json.plain_ofMembers ?_ <;> simp [Json.plain_ofText, Json.plain_ofInt]

theorem Operation.plain_toJson (op : Operation) : op.toJson.Plain := by
  refine Json.plain_ofMembers ?_
  simp [Opcode.toJson, Json.plain_ofText, Json.plain_ofInt, Json.plain_ofOption,
    Immediate.plain_toJson, Location.plain_toJson]

/-- **All leaves of the value of a program are plain.** -/
theorem Program.plain_toJson (p : Program) : p.toJson.Plain := by
  refine Json.plain_ofMembers (List.forall_mem_singleton.2 (Json.plain_array.2 fun v hv => ?_))
  obtain ⟨op, -, rfl⟩ := List.mem_map.1 hv
  exact op.plain_toJson

/-- **A program that fits is read back from its text.** -/
theorem Program.ofJson?_read?_text (p : Program) (h : p.Fits) :
    (Json.read? p.toJson.text).bind Program.ofJson? = some p := by
  rw [Json.read?_text p.plain_toJson, Option.bind_some]
  exact Program.ofJson?_toJson h

/-- The least integer, controls, quotes and backslashes, a literal where none belongs, and the last
jump and row. -/
theorem Program.ofJson?_read?_text_extreme :
    let p : Program := ⟨#[⟨.pushInt, some (.int Int64.minValue), none, ⟨"\x00\n\"", 0⟩⟩,
      ⟨.dump, some (.str "\x1f\\"), some (UInt64.size - 1), ⟨"", UInt64.size - 1⟩⟩]⟩
    p.Fits ∧ (Json.read? p.toJson.text).bind Program.ofJson? = some p := by
  intro p
  have hfits : p.Fits := by
    intro op hop
    have hop : op = p.operations[0] ∨ op = p.operations[1] := by simpa [p] using hop
    rcases hop with rfl | rfl
    · exact ⟨by simp [p], by decide⟩
    · exact ⟨by simp [p], by decide⟩
  exact ⟨hfits, p.ofJson?_read?_text hfits⟩

end StackLang
