import Mathlib.Data.Finite.Prod
import Pg2osync.JsonEncoding

/-!
# What the JSON decoder accepts

The decoder follows every offset, also one that leads back into the container that it is in: it
comes to an end unless it comes to a container inside itself, and it panics on a decimal that has no
digits. It reads the size of a container nowhere and takes bytes that are no text for one, so what
it reads is a value of the format only if it keeps to that by itself.

This says exactly when it does: what of a document is visited, and what has to hold there.
-/

namespace Pg2osync

open Walked

namespace MySql

namespace BinaryJson

/-! ## What is visited -/

/-- A value by its type and the bytes from where it begins. -/
abbrev Node : Type := ℕ × List UInt8

/-- An entry as a part of its container. -/
def partOf : Option Entry → Walk.Part Node
  | none => .refused
  | some (.inline _) => .here
  | some (.refers typeCode data) => .refers (typeCode, data)

/-- What a member's key and entry come to. -/
def memberPart (data : List UInt8) (large : Bool) (count i : ℕ) : Walk.Part Node :=
  partOf ((keyAt data large i).bind fun _ => entryAt data (memberAt large count i) large)

def itemPart (data : List UInt8) (large : Bool) (i : ℕ) : Walk.Part Node :=
  partOf (entryAt data (itemAt large i) large)

/-- The parts of an object. -/
def memberParts (data : List UInt8) (large : Bool) : List (Walk.Part Node) :=
  match field data 0 large with
  | none => [.refused]
  | some count => (List.range count).map (memberPart data large count)

/-- The parts of an array. -/
def itemParts (data : List UInt8) (large : Bool) : List (Walk.Part Node) :=
  match field data 0 large with
  | none => [.refused]
  | some count => (List.range count).map (itemPart data large)

/-- What reading a scalar comes to. -/
def leafOf : Walked Json → Walk.Leaf
  | .panics => .panics
  | .value _ => .read
  | .nothing | .running => .refused

/-- What a value is made of. -/
def next (serde : SerdeJson) : Node → Walk.Leaf ⊕ List (Walk.Part Node)
  | (0x00, data) => .inr (memberParts data false)
  | (0x01, data) => .inr (memberParts data true)
  | (0x02, data) => .inr (itemParts data false)
  | (0x03, data) => .inr (itemParts data true)
  | (typeCode, data) => .inl (leafOf (scalar serde typeCode data))

theorem ofOption_ne_running {α : Type} (x : Option α) : ofOption x ≠ .running := by
  cases x <;> (intro h; cases h)

theorem opaqueFrom_ne_running (serde : SerdeJson) (fieldType : ℕ) (body : List UInt8) :
    opaqueFrom serde fieldType body ≠ .running := by
  have hpacked : ∀ digits precision scale,
      decodePackedDecimal digits precision scale ≠ .running := by
    intro digits precision scale
    unfold decodePackedDecimal
    split
    · intro h
      cases h
    · split <;> (intro h; cases h)
  have hdecimal : decimalFrom serde body ≠ .running := by
    obtain _ | ⟨precision, _ | ⟨scale, digits⟩⟩ := body
    · intro h
      cases h
    · intro h
      cases h
    · have := hpacked digits precision.toNat scale.toNat
      rw [decimalFrom]
      cases hdecoded : decodePackedDecimal digits precision.toNat scale.toNat with
      | running => exact absurd hdecoded this
      | panics | nothing | value _ => intro h; cases h
  unfold opaqueFrom
  split
  · exact hdecimal
  all_goals
    intro h
    cases h

theorem decodeOpaque_ne_running (serde : SerdeJson) (data : List UInt8) :
    decodeOpaque serde data ≠ .running := by
  unfold decodeOpaque
  split
  · intro h
    cases h
  · split
    · intro h
      cases h
    · exact opaqueFrom_ne_running serde _ _

theorem scalar_ne_running (serde : SerdeJson) (typeCode : ℕ) (data : List UInt8) :
    scalar serde typeCode data ≠ .running := by
  unfold scalar
  split
  case h_10 => exact decodeOpaque_ne_running serde data
  case h_11 => intro h; cases h
  all_goals exact ofOption_ne_running _

theorem next_scalar (serde : SerdeJson) {typeCode : ℕ} (h : 4 ≤ typeCode) (data : List UInt8) :
    next serde (typeCode, data) = .inl (leafOf (scalar serde typeCode data)) := by
  unfold next
  split
  case h_5 =>
    next heq =>
      cases heq
      rfl
  all_goals
    next heq =>
      cases heq
      omega

theorem walked_leafOf (serde : SerdeJson) (typeCode : ℕ) (data : List UInt8) :
    (leafOf (scalar serde typeCode data)).walked = (scalar serde typeCode data).kind := by
  have := scalar_ne_running serde typeCode data
  cases hscalar : scalar serde typeCode data with
  | running => exact absurd hscalar this
  | panics | nothing | value _ => rfl

theorem kind_entryValue (serde : SerdeJson) {fuel : ℕ}
    (h : ∀ typeCode data, (decodeValue serde fuel typeCode data).kind =
      Walk.walk (next serde) fuel (typeCode, data)) (entry : Option Entry) :
    (entryValue (decodeValue serde fuel) entry).kind =
      (partOf entry).walked (Walk.walk (next serde) fuel) := by
  cases entry with
  | none => rfl
  | some entry =>
    cases entry with
    | inline v => rfl
    | refers typeCode data => exact h typeCode data

/-- **Decoding is a walk**: over the types and the places of the values. -/
theorem kind_decodeValue (serde : SerdeJson) (fuel typeCode : ℕ) (data : List UInt8) :
    (decodeValue serde fuel typeCode data).kind = Walk.walk (next serde) fuel (typeCode, data) := by
  induction fuel generalizing typeCode data with
  | zero => rfl
  | succ fuel ih =>
    have hobject : ∀ large, (decodeObject (decodeValue serde fuel) data large).kind =
        all ((memberParts data large).map
          (Walk.Part.walked (Walk.walk (next serde) fuel))) := by
      intro large
      rw [decodeObject, memberParts]
      cases field data 0 large with
      | none => rfl
      | some count =>
        dsimp only
        rw [kind_map, kind_collect, List.map_map]
        refine congrArg all (List.map_congr_left fun i _ => ?_)
        rw [memberValue, Function.comp_apply, memberPart]
        cases keyAt data large i with
        | none => rfl
        | some key => exact (kind_map _ _).trans (kind_entryValue serde ih _)
    have harray : ∀ large, (decodeArray (decodeValue serde fuel) data large).kind =
        all ((itemParts data large).map
          (Walk.Part.walked (Walk.walk (next serde) fuel))) := by
      intro large
      rw [decodeArray, itemParts]
      cases field data 0 large with
      | none => rfl
      | some count =>
        dsimp only
        rw [kind_map, kind_collect, List.map_map]
        exact congrArg all (List.map_congr_left fun i _ => kind_entryValue serde ih _)
    by_cases hscalar : 4 ≤ typeCode
    · rw [decodeValue_scalar serde hscalar, Walk.walk, next_scalar serde hscalar]
      exact (walked_leafOf serde typeCode data).symm
    · obtain rfl | rfl | rfl | rfl : typeCode = 0 ∨ typeCode = 1 ∨ typeCode = 2 ∨ typeCode = 3 := by
        omega
      · exact hobject false
      · exact hobject true
      · exact harray false
      · exact harray true

/-! ## Where the decoder ends -/

/-- A decimal that has neither digits before the point nor behind it. -/
def NoDigits (n : Node) : Prop :=
  n.1 = OPAQUE ∧ ∃ rest more len digits, n.2 = 246 :: rest ∧ varLen rest = some (len, more) ∧
    head len more = some (0 :: 0 :: digits)

theorem digBytes_eq_zero {digits : ℕ} (hle : digits ≤ 9) : digBytes digits = 0 ↔ digits = 0 := by
  constructor
  · intro h
    by_contra hne
    have := StoredDecimal.digBytes_pos (Nat.pos_of_ne_zero hne) hle
    omega
  · rintro rfl
    rfl

theorem decimalSize_eq_zero {precision scale : ℕ} :
    decimalSize precision scale = 0 ↔ precision = 0 ∧ scale = 0 := by
  have hfirst := digBytes_eq_zero
    (show precision - scale - (precision - scale) / 9 * 9 ≤ 9 by omega)
  have hlast := digBytes_eq_zero (show scale - scale / 9 * 9 ≤ 9 by omega)
  rw [decimalSize]
  omega

theorem decimalFrom_panics (serde : SerdeJson) {body : List UInt8} :
    decimalFrom serde body = .panics ↔ ∃ digits, body = 0 :: 0 :: digits := by
  have hne : ∀ digits precision scale, decodePackedDecimal digits precision scale = .panics ↔
      precision = 0 ∧ scale = 0 := by
    intro digits precision scale
    rw [← decimalSize_eq_zero, decodePackedDecimal]
    split
    · next hzero => exact iff_of_true rfl hzero
    · next hpos =>
      refine iff_of_false (fun h => ?_) hpos
      split at h <;> cases h
  obtain _ | ⟨precision, _ | ⟨scale, digits⟩⟩ := body
  · refine iff_of_false (fun h => by cases h) ?_
    rintro ⟨_, h⟩
    cases h
  · refine iff_of_false (fun h => by cases h) ?_
    rintro ⟨_, h⟩
    cases h
  · have hzero : ∀ b : UInt8, b.toNat = 0 ↔ b = 0 := fun b => by
      rw [← UInt8.toNat_inj]
      rfl
    have hmap : ∀ {x : Walked String} {f : String → Json}, x.map f = .panics ↔ x = .panics := by
      intro x f
      cases x with
      | running | nothing | value _ => exact iff_of_false (fun h => by cases h) fun h => by cases h
      | panics => exact iff_of_true rfl rfl
    rw [decimalFrom, hmap, hne, hzero, hzero]
    constructor
    · rintro ⟨rfl, rfl⟩
      exact ⟨digits, rfl⟩
    · rintro ⟨_, h⟩
      cases h
      exact ⟨rfl, rfl⟩

/-- **The decoder panics** on a decimal without digits, and on nothing else. -/
theorem scalar_panics (serde : SerdeJson) {typeCode : ℕ} {data : List UInt8} :
    scalar serde typeCode data = .panics ↔ NoDigits (typeCode, data) := by
  have hoption : ∀ x : Option Json, ofOption x ≠ .panics := fun x => by
    cases x <;> (intro h; cases h)
  by_cases hopaque : typeCode = OPAQUE
  · subst hopaque
    have hscalar : scalar serde OPAQUE data = decodeOpaque serde data := rfl
    rw [hscalar]
    obtain _ | ⟨fieldType, rest⟩ := data
    · refine iff_of_false (fun h => by cases h) ?_
      rintro ⟨-, _, _, _, _, h, -⟩
      cases h
    · rw [decodeOpaque]
      generalize hbody : (varLen rest).bind _ = body
      cases body with
      | none =>
        refine iff_of_false (fun h => by cases h) ?_
        rintro ⟨-, rest', more, len, digits, heq, hlen, hhead⟩
        cases heq
        rw [hlen] at hbody
        exact absurd (hbody.symm.trans hhead) (by intro h; cases h)
      | some body =>
        dsimp only
        have hcode : fieldType.toNat = 246 ↔ fieldType = 246 := by
          rw [← UInt8.toNat_inj]
          rfl
        by_cases hdecimal : fieldType = 246
        · subst hdecimal
          have hfrom : opaqueFrom serde (246 : UInt8).toNat body = decimalFrom serde body := rfl
          rw [hfrom, decimalFrom_panics]
          constructor
          · rintro ⟨digits, rfl⟩
            obtain ⟨⟨len, more⟩, hlen, hhead⟩ := Option.bind_eq_some_iff.mp hbody
            exact ⟨rfl, rest, more, len, digits, rfl, hlen, hhead⟩
          · rintro ⟨-, rest', more, len, digits, heq, hlen, hhead⟩
            cases heq
            rw [hlen] at hbody
            exact ⟨digits, Option.some.inj (hbody.symm.trans hhead)⟩
        · refine iff_of_false (fun h => ?_) ?_
          · unfold opaqueFrom at h
            split at h
            · next heq => exact hdecimal (hcode.mp heq)
            all_goals cases h
          · rintro ⟨-, _, _, _, _, heq, -⟩
            cases heq
            exact hdecimal rfl
  · refine iff_of_false (fun h => ?_) fun h => hopaque h.1
    unfold scalar at h
    split at h
    case h_10 => exact hopaque rfl
    case h_11 => cases h
    all_goals exact hoption _ h

/-- A node to which decoding a document comes. -/
def Visits (serde : SerdeJson) : Node → Node → Prop :=
  Relation.ReflTransGen (Walk.Child (next serde))

/-- A node that lies inside itself. -/
def Circular (serde : SerdeJson) (n : Node) : Prop :=
  Relation.TransGen (Walk.Child (next serde)) n n

theorem next_panics (serde : SerdeJson) {n : Node} :
    next serde n = .inl .panics ↔ NoDigits n := by
  obtain ⟨typeCode, data⟩ := n
  by_cases hscalar : 4 ≤ typeCode
  · rw [next_scalar serde hscalar, ← scalar_panics serde]
    cases scalar serde typeCode data with
    | running | nothing | value _ => exact iff_of_false (fun h => by cases h) fun h => by cases h
    | panics => exact iff_of_true rfl rfl
  · refine iff_of_false (fun h => ?_) fun h => ?_
    · obtain rfl | rfl | rfl | rfl : typeCode = 0 ∨ typeCode = 1 ∨ typeCode = 2 ∨ typeCode = 3 := by
        omega
      all_goals cases h
    · have hcode : typeCode = OPAQUE := h.1
      have hvalue : OPAQUE = 15 := rfl
      omega

/-- Where an entry refers to is further behind, and of a type of one byte. -/
theorem entryAt_refers {data data' : List UInt8} {start typeCode : ℕ} {large : Bool}
    (h : entryAt data start large = some (.refers typeCode data')) :
    data' <:+ data ∧ typeCode < 256 := by
  unfold entryAt at h
  split at h
  · next code _ _ _ =>
    have hlt : code.toNat < 256 := code.toNat_lt
    have hinline : ∀ {part : Option Json}, part.map Entry.inline ≠ some (.refers typeCode data') := by
      intro part hpart
      obtain ⟨_, -, heq⟩ := Option.map_eq_some_iff.mp hpart
      cases heq
    split at h
    case h_6 =>
      obtain ⟨offset, -, h⟩ := Option.bind_eq_some_iff.mp h
      obtain ⟨rest, hrest, h⟩ := Option.map_eq_some_iff.mp h
      cases h
      refine ⟨?_, by omega⟩
      rw [behind] at hrest
      split at hrest
      · cases hrest
        exact List.drop_suffix _ _
      · cases hrest
    all_goals exact absurd h hinline
  · cases h

theorem partOf_refers {entry : Option Entry} {m : Node} (h : partOf entry = .refers m) :
    entry = some (.refers m.1 m.2) := by
  cases entry with
  | none => cases h
  | some entry =>
    cases entry with
    | inline v => cases h
    | refers typeCode data =>
      cases h
      rfl

/-- A part that is another value lies further behind. -/
theorem refers_of_next (serde : SerdeJson) {n m : Node} {parts : List (Walk.Part Node)}
    (h : next serde n = .inr parts) (hm : .refers m ∈ parts) : m.2 <:+ n.2 ∧ m.1 < 256 := by
  have hmembers : ∀ data large, .refers m ∈ memberParts data large → m.2 <:+ data ∧ m.1 < 256 := by
    intro data large hmem
    unfold memberParts at hmem
    split at hmem
    · cases List.mem_singleton.mp hmem
    · obtain ⟨i, -, hi⟩ := List.mem_map.mp hmem
      obtain ⟨_, -, hentry⟩ := Option.bind_eq_some_iff.mp (partOf_refers hi)
      exact entryAt_refers hentry
  have hitems : ∀ data large, .refers m ∈ itemParts data large → m.2 <:+ data ∧ m.1 < 256 := by
    intro data large hmem
    unfold itemParts at hmem
    split at hmem
    · cases List.mem_singleton.mp hmem
    · obtain ⟨i, -, hi⟩ := List.mem_map.mp hmem
      exact entryAt_refers (partOf_refers hi)
  unfold next at h
  split at h
  · cases h
    exact hmembers _ _ hm
  · cases h
    exact hmembers _ _ hm
  · cases h
    exact hitems _ _ hm
  · cases h
    exact hitems _ _ hm
  · cases h

/-- Decoding a document comes to finitely many values. -/
theorem finite_visits (serde : SerdeJson) (n : Node) :
    {m | Relation.ReflTransGen (Walk.Child (next serde)) n m}.Finite := by
  have hfinite : ({n} ∪ ({code | code < 256} ×ˢ {data | data ∈ n.2.tails})).Finite :=
    (Set.finite_singleton n).union ((Set.finite_lt_nat 256).prod (List.finite_toSet _))
  refine hfinite.subset fun m hm => ?_
  have hbehind : m = n ∨ m.1 < 256 ∧ m.2 <:+ n.2 := by
    induction hm with
    | refl => exact .inl rfl
    | tail _ hchild ih =>
      obtain ⟨front, back, hnext, -⟩ := hchild
      obtain ⟨hsuffix, hlt⟩ := refers_of_next serde hnext
        (List.mem_append_right _ List.mem_cons_self)
      obtain rfl | ⟨-, hbefore⟩ := ih
      · exact .inr ⟨hlt, hsuffix⟩
      · exact .inr ⟨hlt, hsuffix.trans hbefore⟩
  obtain rfl | ⟨hlt, hsuffix⟩ := hbehind
  · exact .inl rfl
  · exact .inr ⟨hlt, (List.mem_tails _ _).mpr hsuffix⟩

/-- What reading comes to for ever, or panics on. -/
theorem not_stuck_iff (serde : SerdeJson) (n : Node) : ¬Walk.Stuck (next serde) n ↔
    ∀ m, Visits serde n m → ¬NoDigits m ∧ ¬Circular serde m := by
  constructor
  · intro h m hm
    exact ⟨fun hpanics => h ⟨m, hm, .inl ((next_panics serde).mpr hpanics)⟩,
      fun hcircular => h ⟨m, hm, .inr hcircular⟩⟩
  · rintro h ⟨m, hm, hpanics | hcircular⟩
    · exact (h m hm).1 ((next_panics serde).mp hpanics)
    · exact (h m hm).2 hcircular

/-- The decoder has come to an end where the walk has. -/
theorem decodeValue_ended_iff (serde : SerdeJson) (fuel typeCode : ℕ) (data : List UInt8) :
    (decodeValue serde fuel typeCode data = .nothing ∨
      ∃ v, decodeValue serde fuel typeCode data = .value v) ↔
    (Walk.walk (next serde) fuel (typeCode, data) = .nothing ∨
      Walk.walk (next serde) fuel (typeCode, data) = .value ()) := by
  rw [← kind_decodeValue]
  cases decodeValue serde fuel typeCode data with
  | running | panics => simp [kind, map]
  | nothing => simp [kind, map]
  | value v => simp [kind, map]

/-- **The decoder ends** unless it comes to a value inside itself or to a decimal without digits. -/
theorem decodeValue_ends_iff (serde : SerdeJson) (typeCode : ℕ) (data : List UInt8) :
    (∃ fuel, decodeValue serde fuel typeCode data = .nothing ∨
      ∃ v, decodeValue serde fuel typeCode data = .value v) ↔
    ∀ m, Visits serde (typeCode, data) m → ¬NoDigits m ∧ ¬Circular serde m := by
  rw [exists_congr fun fuel => decodeValue_ended_iff serde fuel typeCode data,
    Walk.ends_iff (finite_visits serde _), not_stuck_iff]

/-- And once it has, more steps change nothing. -/
theorem decodeValue_ended_of_le {serde : SerdeJson} {fuel fuel' typeCode : ℕ} {data : List UInt8}
    (hle : fuel ≤ fuel') (h : decodeValue serde fuel typeCode data = .nothing ∨
      ∃ v, decodeValue serde fuel typeCode data = .value v) :
    decodeValue serde fuel' typeCode data = .nothing ∨
      ∃ v, decodeValue serde fuel' typeCode data = .value v := by
  rw [decodeValue_ended_iff] at h ⊢
  rwa [Walk.walk_of_le (by obtain h | h := h <;> rw [h] <;> (intro h; cases h)) hle]

end BinaryJson

end MySql

end Pg2osync
