import Queueing.Proofs.Json.Records
import Queueing.Proofs.Json.Rereading

/-!
# Documents that are read back

`Rereads f n x y` says what is read from a field where a value `x` was written: the value in `y`,
or nothing if there is none. Counts and texts are read as they were; a real is read as its
rereading, and not at all if it has no numeral; a list or a record is read part by part. What is
read from the field is also read from a text of its own (`Rereads.read_pretty`,
`Rereads.read_compact`).
-/

namespace Queueing.Json

open Reading

/-- What is read where a value was written as a field, when so many arrays and objects may be
nested at least: the document of a value, which stands for that value. -/
structure Rereads {τ : Type} [Form τ] (f : Field) (levels : ℕ) (x : τ) (y : Option τ) : Prop where
  finite : (Form.write x).Finite
  accept : ∀ depth, levels ≤ depth →
    (checkField (check depth) f (ofValue (Form.write x))).toOption = y.map Form.write
  restore : ∀ z, y = some z → Form.ofValue? (Form.write z) = some z

theorem checkField_of_not_nullable {check : Shape → Reading → Except ReadError Value} {f : Field}
    (hn : f.nullable = false) (r : Reading) : checkField check f r = check f.shape r := by
  rw [checkField.eq_def, hn]
  rfl

namespace Rereads

variable {τ : Type} [Form τ] {f : Field} {levels : ℕ} {x : τ} {y : Option τ}

theorem read_of_ofText (h : Rereads (.required "" (shapeOf τ)) levels x y)
    (hlevels : levels ≤ maxDepth) {text : String}
    (htext : ofText text = (ofValue (Form.write x), true)) :
    (Json.read τ text).toOption = y := by
  have haccept := h.accept maxDepth hlevels
  rw [checkField_of_not_nullable rfl] at haccept
  change (check maxDepth (shapeOf τ) _).toOption = _ at haccept
  simp only [Json.read, Shape.read, htext, if_true]
  cases hcheck : check maxDepth (shapeOf τ) (ofValue (Form.write x)) with
  | error e =>
    rw [hcheck] at haccept
    cases y with
    | none => rfl
    | some z => cases haccept
  | ok v =>
    rw [hcheck] at haccept
    cases y with
    | none => cases haccept
    | some z =>
      obtain rfl : v = Form.write z := Option.some.inj haccept
      simp only [h.restore z rfl]
      rfl

theorem mono (h : Rereads f levels x y) {more : ℕ} (hle : levels ≤ more) : Rereads f more x y :=
  ⟨h.finite, fun depth hdepth => h.accept depth (hle.trans hdepth), h.restore⟩

/-- **What is read from the indented text of a value.** -/
theorem read_pretty (h : Rereads (.required "" (shapeOf τ)) levels x y)
    (hlevels : levels ≤ maxDepth) : (Json.read τ (pretty x)).toOption = y :=
  h.read_of_ofText hlevels (ofText_pretty h.finite)

theorem read_compact (h : Rereads (.required "" (shapeOf τ)) levels x y)
    (hlevels : levels ≤ maxDepth) : (Json.read τ (compact x)).toOption = y :=
  h.read_of_ofText hlevels (ofText_compact h.finite)

end Rereads

/-! ## Plain values -/

def rereadReal? (x : Binary64) : Option Binary64 := if x.isFinite then some x.rereading else none

/-- What is read for a real that may be missing: one without a numeral is then missing. -/
def rereadOptional : Option Binary64 → Option Binary64
  | none => none
  | some x => rereadReal? x

theorem rereadReal?_eq_some_iff {x z : Binary64} :
    rereadReal? x = some z ↔ x.isFinite = true ∧ x.rereading = z := by
  rw [rereadReal?]
  split_ifs with hx <;> simp [hx]

def rereadCount? (n : ℕ) : Option ℕ := if n < Decimal.wordLimit then some n else none

theorem rereadCount?_eq_self_iff {n : ℕ} : rereadCount? n = some n ↔ n < Decimal.wordLimit := by
  rw [rereadCount?]
  split_ifs with hn <;> simp [hn]

/-- A real that has a numeral and is read as it was. -/
def Kept (x : Binary64) : Prop := rereadReal? x = some x

theorem rereadReal?_eq_self_iff {x : Binary64} : rereadReal? x = some x ↔ Kept x := Iff.rfl

theorem kept_iff {x : Binary64} : Kept x ↔ x.isFinite = true ∧ x.rereading = x :=
  rereadReal?_eq_some_iff

theorem rereadOptional_eq_self_iff {x : Option Binary64} :
    rereadOptional x = x ↔ ∀ m ∈ x, Kept m := by
  cases x with
  | none => simp [rereadOptional]
  | some m => simp [rereadOptional, Kept]

theorem ofReal_of_rereadReal? {x z : Binary64} (h : rereadReal? x = some z) :
    Value.ofReal z = .number (.real z) := by
  obtain ⟨hx, rfl⟩ := rereadReal?_eq_some_iff.mp h
  exact if_pos (Binary64.isFinite_rereading hx)

theorem real?_ofReal_of_rereadReal? {x z : Binary64} (h : rereadReal? x = some z) :
    Value.real? (Value.ofReal z) = some z := by
  rw [ofReal_of_rereadReal? h]
  rfl

theorem option?_rereadOptional (x : Option Binary64) :
    Value.option? Value.real? (Value.ofOption Value.ofReal (rereadOptional x)) =
      some (rereadOptional x) := by
  cases x with
  | none => rfl
  | some x =>
    rw [rereadOptional]
    cases hy : rereadReal? x with
    | none => rfl
    | some z =>
      rw [Value.ofOption, ofReal_of_rereadReal? hy]
      rfl

theorem finite_ofReal (x : Binary64) : (Value.ofReal x).Finite := by
  rw [Value.ofReal]
  split_ifs with hx
  · exact hx
  · trivial

theorem number?_ofNumber {x : Binary64} (hx : x.isFinite = true) :
    (Numeral.ofNumber (.real x)).number? = some (.real x.rereading) := by
  rw [Numeral.ofNumber, Numeral.number?_ofReal, Numeral.real?_ofReal hx]
  rfl

theorem check_real (depth : ℕ) (x : Binary64) :
    (check depth .real (ofValue (Value.ofReal x))).toOption = (rereadReal? x).map Value.ofReal := by
  cases hy : rereadReal? x with
  | none =>
    have hx : ¬ x.isFinite = true := fun hx => by
      rw [rereadReal?, if_pos hx] at hy
      cases hy
    rw [Value.ofReal, if_neg hx]
    simp only [ofValue, check, checkReal]
    rfl
  | some z =>
    obtain ⟨hx, rfl⟩ := rereadReal?_eq_some_iff.mp hy
    have hnumber := number?_ofNumber hx
    rw [Option.map_some, ofReal_of_rereadReal? hy, Value.ofReal, if_pos hx]
    simp only [ofValue, check, checkReal, hnumber]
    rfl

section

variable {f : Field} {levels : ℕ}

theorem rereads_real (hs : f.shape = .real) (hn : f.nullable = false) (x : Binary64) :
    Rereads f levels x (rereadReal? x) := by
  refine ⟨finite_ofReal x, fun depth _ => ?_, fun z hz => ?_⟩
  · rw [checkField_of_not_nullable hn, hs]
    exact check_real depth x
  · exact real?_ofReal_of_rereadReal? hz

theorem rereads_optional_real (hs : f.shape = .real) (hn : f.nullable = true)
    (x : Option Binary64) : Rereads f levels x (some (rereadOptional x)) := by
  refine ⟨?_, fun depth _ => ?_, ?_⟩
  · cases x with
    | none => trivial
    | some x => exact finite_ofReal x
  · rw [checkField.eq_def, hn, hs]
    cases x with
    | none => rfl
    | some x =>
      have hcheck := check_real depth x
      rw [show Form.write (some x) = Value.ofReal x from rfl, rereadOptional]
      by_cases hx : x.isFinite = true
      · have hy : rereadReal? x = some x.rereading := rereadReal?_eq_some_iff.mpr ⟨hx, rfl⟩
        rw [hy] at hcheck ⊢
        rw [Value.ofReal, if_pos hx] at hcheck ⊢
        exact hcheck
      · rw [Value.ofReal, if_neg hx, rereadReal?, if_neg hx]
        rfl
  · rintro _ ⟨⟩
    exact option?_rereadOptional x

theorem nat?_ofNat (n : ℕ) : Value.nat? (Value.ofNat n) = some n := by
  rw [Value.ofNat, Value.nat?, if_pos (Int.natCast_nonneg n), Int.toNat_natCast]

theorem ofValue?_count (n : ℕ) : Form.ofValue? (Form.write n) = some n := nat?_ofNat n

theorem check_count_of_lt {n : ℕ} (hn : n < Decimal.wordLimit) (depth : ℕ) (type : String) :
    check depth (.count type) (ofValue (Value.ofNat n)) = .ok (Value.ofNat n) := by
  have hnumber : (Numeral.ofNumber (.integer n)).number? = some (.integer n) :=
    Numeral.number?_ofInt hn
  simp only [Value.ofNat, ofValue, check, checkCount, hnumber, if_pos (Int.natCast_nonneg n)]

theorem toOption_refuse {α : Type} (expected : String) (r : Reading) :
    (refuse expected r : Except ReadError α).toOption = none := by
  rw [refuse]
  cases found r <;> rfl

/-- A count that does not fit into 64 bits is taken for a real and refused. -/
theorem check_count (depth : ℕ) (type : String) (n : ℕ) :
    (check depth (.count type) (ofValue (Value.ofNat n))).toOption =
      (rereadCount? n).map Value.ofNat := by
  rw [rereadCount?]
  split_ifs with hn
  · rw [check_count_of_lt hn]
    rfl
  · have hnumber : (Numeral.ofNumber (.integer n)).number? =
        (Numeral.ofInt n).real?.map .real := Numeral.number?_ofInt_of_le (not_lt.mp hn)
    simp only [Value.ofNat, ofValue, check, checkCount, hnumber]
    cases (Numeral.ofInt n).real? <;> exact toOption_refuse _ _

theorem rereads_count {type : String} (hs : f.shape = .count type) (hn : f.nullable = false)
    (n : ℕ) : Rereads f levels n (rereadCount? n) := by
  refine ⟨trivial, fun depth _ => ?_, fun z _ => nat?_ofNat z⟩
  rw [checkField_of_not_nullable hn, hs]
  exact check_count depth type n

theorem word?_ofNat (n : UInt64) : Value.word? (Value.ofNat n.toNat) = some n := by
  rw [Value.word?, nat?_ofNat, Option.map_some, UInt64.ofNat_toNat]

theorem rereads_word {type : String} (hs : f.shape = .count type) (hn : f.nullable = false)
    (n : UInt64) : Rereads f levels n (some n) := by
  refine ⟨trivial, fun depth _ => ?_, ?_⟩
  · rw [checkField_of_not_nullable hn, hs, show Form.write n = Value.ofNat n.toNat from rfl,
      check_count_of_lt n.toNat_lt]
    rfl
  · rintro _ ⟨⟩
    exact word?_ofNat n

theorem option?_word (n : Option UInt64) :
    Value.option? Value.word? (Value.ofOption (fun n => Value.ofNat n.toNat) n) = some n := by
  cases n with
  | none => rfl
  | some n => exact congrArg (Option.map some) (word?_ofNat n)

theorem rereads_optional_word {type : String} (hs : f.shape = .count type)
    (hn : f.nullable = true) (n : Option UInt64) : Rereads f levels n (some n) := by
  refine ⟨?_, fun depth _ => ?_, ?_⟩
  · cases n <;> trivial
  · rw [checkField.eq_def, hn, hs]
    cases n with
    | none => rfl
    | some n =>
      change (check depth (.count type) (ofValue (Value.ofNat n.toNat))).toOption = _
      rw [check_count_of_lt n.toNat_lt]
      rfl
  · rintro _ ⟨⟩
    exact option?_word n

theorem rereads_text (hs : f.shape = .text) (hn : f.nullable = false) (s : String) :
    Rereads f levels s (some s) := by
  refine ⟨trivial, fun depth _ => ?_, ?_⟩
  · rw [checkField_of_not_nullable hn, hs]
    show (check depth .text (.string (some s))).toOption = _
    simp only [check]
    rfl
  · rintro _ ⟨⟩
    rfl

end

/-! ## Lists -/

theorem ofItems_eq (items : List Value) : ofItems items = items.map ofValue := by
  induction items with
  | nil => rfl
  | cons v items ih => rw [ofItems, ih, List.map_cons]

theorem ofMembers_eq (members : List (String × Value)) :
    ofMembers members = members.map fun m => (.string (some m.1), ofValue m.2) := by
  induction members with
  | nil => rfl
  | cons m members ih => rw [ofMembers, ih, List.map_cons]

section

variable {τ : Type} [Form τ] {f : Field} {levels : ℕ}

theorem rereads_list {item : Shape} (hs : f.shape = .list item) (hn : f.nullable = false)
    {xs : List τ} {g : τ → Option τ}
    (h : ∀ x ∈ xs, Rereads (.required "" item) levels x (g x)) :
    Rereads f (levels + 1) xs (xs.mapM g) := by
  refine ⟨?_, fun depth hdepth => ?_, fun ys hys => ?_⟩
  · refine finiteItems_iff.mpr fun v hv => ?_
    obtain ⟨x, hx, rfl⟩ := List.mem_map.mp hv
    exact (h x hx).finite
  · obtain ⟨depth, rfl⟩ := Nat.exists_eq_add_of_le' (show 1 ≤ depth by omega)
    have hwrite : ofValue (Form.write xs) =
        .array (xs.map fun x => ofValue (Form.write x)) true := by
      show Reading.array (ofItems (xs.map Form.write)) true = _
      rw [ofItems_eq, List.map_map]
      rfl
    have hlist : (check (depth + 1) (.list item) (ofValue (Form.write xs))).toOption =
        (xs.mapM fun x => (check depth item (ofValue (Form.write x))).toOption).map .array := by
      rw [hwrite, ← toOption_mapM]
      simp only [check, List.mapM_map, Function.comp_def]
      cases xs.mapM fun x => check depth item (ofValue (Form.write x)) <;> rfl
    have hitems : ∀ x ∈ xs, (check depth item (ofValue (Form.write x))).toOption =
        (g x).map Form.write := fun x hx => (h x hx).accept depth (by omega)
    rw [checkField_of_not_nullable hn, hs, hlist, mapM_congr hitems, mapM_map_option,
      Option.map_map]
    rfl
  · show List.mapM Form.ofValue? (ys.map Form.write) = some ys
    rw [List.mapM_map]
    exact mapM_of_mapM_eq_some (fun x hx => (h x hx).restore) hys

end

/-! ## Records -/

/-- A field of a record with the value that is written for it, and what is read there. -/
structure Part (levels : ℕ) where
  field : Field
  value : Value
  outcome : Option Value
  finite : value.Finite
  accept : ∀ depth, levels ≤ depth →
    (checkField (check depth) field (ofValue value)).toOption = outcome

def Rereads.part {τ : Type} [Form τ] {f : Field} {levels : ℕ} {x : τ} {y : Option τ}
    (h : Rereads f levels x y) : Part levels :=
  ⟨f, Form.write x, y.map Form.write, h.finite, h.accept⟩

namespace Part

variable {levels : ℕ}

def member (p : Part levels) : String × Value := (p.field.name, p.value)

def reread? (p : Part levels) : Option (String × Value) := p.outcome.map fun v => (p.field.name, v)

theorem reread?_part {τ : Type} [Form τ] {f : Field} {x : τ} {y : Option τ}
    (h : Rereads f levels x y) : h.part.reread? = y.map fun z => (f.name, Form.write z) :=
  Option.map_map ..

theorem finiteMembers (parts : List (Part levels)) : Value.FiniteMembers (parts.map member) := by
  refine finiteMembers_iff.mpr fun m hm => ?_
  obtain ⟨p, -, rfl⟩ := List.mem_map.mp hm
  exact p.finite

/-- Each part is read on its own. -/
theorem toOption_mapM_checkNamed {depth : ℕ} (hdepth : levels ≤ depth)
    (parts : List (Part levels)) :
    ((parts.map fun p => (p.field, ofValue p.value)).mapM (checkNamed (check depth))).toOption =
      parts.mapM reread? := by
  rw [toOption_mapM, List.mapM_map]
  refine mapM_congr fun p _ => ?_
  rw [reread?, ← p.accept depth hdepth]
  show (checkNamed (check depth) (p.field, ofValue p.value)).toOption = _
  rw [checkNamed]
  cases checkField (check depth) p.field (ofValue p.value) <;> rfl

end Part

section

variable {τ : Type} [Form τ] {f : Field} {levels : ℕ} {r : Record} {x : τ} {y : Option τ}

/-- **A record is read part by part.** -/
theorem rereads_record (parts : List (Part levels)) (hs : f.shape = .record r)
    (hn : f.nullable = false) (hwrite : Form.write x = .object (parts.map Part.member))
    (hfields : r.fields = parts.map Part.field) (hnodup : (r.fields.map Field.name).Nodup)
    (hy : (parts.mapM Part.reread?).map .object = y.map Form.write)
    (hrestore : ∀ z, y = some z → Form.ofValue? (Form.write z) = some z) :
    Rereads f (levels + 1) x y := by
  refine ⟨?_, fun depth hdepth => ?_, hrestore⟩
  · rw [hwrite]
    exact Part.finiteMembers parts
  · obtain ⟨depth, rfl⟩ := Nat.exists_eq_add_of_le' (show 1 ≤ depth by omega)
    have hmembers := checkMembers_written (check depth)
      (parts.map fun p => (p.field, ofValue p.value)) (by rw [hfields, List.map_map]; rfl) hnodup
    rw [List.map_map] at hmembers
    rw [checkField_of_not_nullable hn, hs, hwrite, ofValue, ofMembers_eq, List.map_map]
    simp only [check, Function.comp_def, Part.member] at hmembers ⊢
    rw [hmembers, ← hy, ← Part.toOption_mapM_checkNamed (Nat.le_of_succ_le_succ hdepth)]
    cases (parts.map fun p => (p.field, ofValue p.value)).mapM (checkNamed (check depth)) <;> rfl

/-- **A variant is read part by part**, after its tag. -/
theorem rereads_tagged (name : String) (parts : List (Part levels)) {title tag : String}
    {variants : List (String × Record)} (hs : f.shape = .tagged title tag variants)
    (hn : f.nullable = false)
    (hlookup : variants.lookup name = some r)
    (hwrite : Form.write x = .object ((tag, .string name) :: parts.map Part.member))
    (hfields : r.fields = parts.map Part.field) (hnodup : (r.fields.map Field.name).Nodup)
    (htag : tag ∉ r.fields.map Field.name)
    (hany : ∀ depth, ∀ p ∈ parts, ∃ v, check depth .any (ofValue p.value) = .ok v)
    (hy : ((parts.mapM Part.reread?).map fun members =>
      .object ((tag, .string name) :: members)) = y.map Form.write)
    (hrestore : ∀ z, y = some z → Form.ofValue? (Form.write z) = some z) :
    Rereads f (levels + 1) x y := by
  refine ⟨?_, fun depth hdepth => ?_, hrestore⟩
  · rw [hwrite]
    exact ⟨trivial, Part.finiteMembers parts⟩
  · obtain ⟨depth, rfl⟩ := Nat.exists_eq_add_of_le' (show 1 ≤ depth by omega)
    have hmembers := checkTagged_written (check depth)
      (parts.map fun p => (p.field, ofValue p.value)) hlookup
      (by rw [hfields, List.map_map]; rfl) hnodup htag (by
        intro p hp
        obtain ⟨q, hq, rfl⟩ := List.mem_map.mp hp
        exact hany depth q hq)
    rw [List.map_map] at hmembers
    rw [checkField_of_not_nullable hn, hs, hwrite, ofValue, ofMembers_eq, List.map_cons,
      List.map_map]
    simp only [check, Function.comp_def, ofValue, Part.member] at hmembers ⊢
    rw [hmembers, ← hy, ← Part.toOption_mapM_checkNamed (Nat.le_of_succ_le_succ hdepth)]
    cases (parts.map fun p => (p.field, ofValue p.value)).mapM (checkNamed (check depth)) <;> rfl

end

/-! ## Choices -/

section

variable {τ σ : Type} [Form τ] [Form σ] {f : Field} {levels : ℕ} {name : String}
  {variants : List (String × Option Shape)}

theorem rereads_variant {shape : Shape} (hs : f.shape = .choice variants)
    (hn : f.nullable = false) (hlookup : variants.lookup name = some (some shape)) {x : τ}
    {y : Option τ} {v : σ} {w : Option σ} (hv : Rereads (.required name shape) levels v w)
    (hwrite : Form.write x = .object [(name, Form.write v)])
    (hy : (w.map fun z => .object [(name, Form.write z)]) = y.map Form.write)
    (hrestore : ∀ z, y = some z → Form.ofValue? (Form.write z) = some z) :
    Rereads f (levels + 1) x y := by
  refine ⟨?_, fun depth hdepth => ?_, hrestore⟩
  · rw [hwrite]
    exact ⟨hv.finite, trivial⟩
  · obtain ⟨depth, rfl⟩ := Nat.exists_eq_add_of_le' (show 1 ≤ depth by omega)
    have haccept := hv.accept depth (by omega)
    rw [checkField_of_not_nullable rfl] at haccept
    have hvariant : checkVariant (check depth) variants
        [(.string (some name), ofValue (Form.write v))] true =
          (check depth shape (ofValue (Form.write v))).map fun v => .object [(name, v)] := by
      simp only [checkVariant, checkKey, bind, Except.bind, hlookup]
      cases check depth shape (ofValue (Form.write v)) <;> rfl
    rw [checkField_of_not_nullable hn, hs, hwrite, ofValue, ofMembers_eq, ← hy]
    simp only [check, List.map_cons, List.map_nil, hvariant]
    change (check depth shape _).toOption = _ at haccept
    cases hcheck : check depth shape (ofValue (Form.write v)) with
    | error e =>
      rw [hcheck] at haccept
      cases w with
      | none => rfl
      | some z => cases haccept
    | ok value =>
      rw [hcheck] at haccept
      cases w with
      | none => cases haccept
      | some z =>
        obtain rfl : value = Form.write z := Option.some.inj haccept
        rfl

theorem rereads_name (hs : f.shape = .choice variants) (hn : f.nullable = false)
    (hlookup : variants.lookup name = some none) {x : τ} (hwrite : Form.write x = .string name)
    (hrestore : Form.ofValue? (.string name) = some x) : Rereads f levels x (some x) := by
  refine ⟨?_, fun depth _ => ?_, ?_⟩
  · rw [hwrite]
    trivial
  · rw [checkField_of_not_nullable hn, hs, Option.map_some, hwrite]
    show (check depth (.choice variants) (.string (some name))).toOption = _
    simp only [check, checkName, hlookup]
    rfl
  · rintro _ ⟨⟩
    rw [hwrite]
    exact hrestore

end

/-! ## What is skipped -/

/-- A member that is looked at before it is known what it is for. -/
theorem exists_check_any_ofReal (depth : ℕ) (x : Binary64) :
    ∃ v, check depth .any (ofValue (Value.ofReal x)) = .ok v := by
  rw [Value.ofReal]
  split_ifs with hx
  · have hnumber := number?_ofNumber hx
    exact ⟨.number (.real x.rereading), by simp only [ofValue, check, hnumber]⟩
  · exact ⟨.null, by simp only [ofValue, check]⟩

theorem exists_check_any_ofNat (depth : ℕ) {n : ℕ} (hn : n < Decimal.wordLimit) :
    ∃ v, check depth .any (ofValue (Value.ofNat n)) = .ok v := by
  have hnumber : (Numeral.ofNumber (.integer n)).number? = some (.integer n) :=
    Numeral.number?_ofInt hn
  exact ⟨.number (.integer n), by simp only [Value.ofNat, ofValue, check, hnumber]⟩

end Queueing.Json
