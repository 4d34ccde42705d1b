import BlockFlow.Proofs.Json.RoundTrip

/-!
# Written fields are understood

A value makes a round trip if its JSON form is read back from its text and is then understood as
that value. Texts, numbers and absences do, and lists and records do if their parts do.
-/

namespace BlockFlow

namespace Fields

variable {ν : Type} (given : List (String × ν)) (positional : Bool) {key field : String} (x : ν)

/-! ### Fields by name -/

@[simp]
theorem get?_nil : get? (⟨[], positional⟩ : Fields ν) field = none := rfl

@[simp]
theorem get?_cons_self : get? ⟨(key, x) :: given, positional⟩ key = some x :=
  List.lookup_cons_self

@[simp]
theorem get?_cons_of_ne (h : field ≠ key) :
    get? ⟨(key, x) :: given, positional⟩ field = get? ⟨given, positional⟩ field := by
  have hne : (field == key) = false := beq_false_of_ne h
  rw [get?, List.lookup_cons, hne]
  rfl

end Fields

namespace Json

/-! ### Round trips -/

variable {β : Type} {write : β → Json} {read : Json → Option β}

/-- What is written for a value is read back from its text and understood as the value. -/
structure RoundTrips (write : β → Json) (read : Json → Option β) (x : β) : Prop where
  readsBack : ReadsBack (write x)
  read_write : read (write x) = some x

/-- A value that makes a round trip is understood from its text. -/
theorem RoundTrips.text {x : β} (h : RoundTrips write read x) :
    (parse? (write x).render).bind read = some x := by
  rw [parse?_render h.readsBack, Option.bind_some, h.read_write]

/-- Values that make a round trip are the same if their texts are. -/
theorem RoundTrips.eq_of_render_eq {x y : β} (hx : RoundTrips write read x)
    (hy : RoundTrips write read y) (h : (write x).render = (write y).render) : x = y := by
  have hread := hy.text
  rw [← h, hx.text] at hread
  exact Option.some.inj hread

theorem roundTrips_ofText (text : String) : RoundTrips ofText text? text :=
  ⟨readsBack_ofText text, text?_ofText text⟩

theorem roundTrips_ofNat {max n : Nat} (h : n ≤ max) : RoundTrips ofNat (nat? max) n :=
  ⟨readsBack_ofNat n, nat?_ofNat h⟩

/-- A list makes a round trip if its items do. -/
theorem roundTrips_ofList {xs : List β} (h : ∀ x ∈ xs, RoundTrips write read x) :
    RoundTrips (ofList write) (list? read) xs where
  readsBack := by
    apply readsBack_array
    intro item hitem
    obtain ⟨x, hx, rfl⟩ := List.mem_map.mp hitem
    exact (h x hx).readsBack
  read_write := mapM_map_eq_some fun x hx ↦ (h x hx).read_write

/-- An absence is written as `null`, and what is there makes a round trip if it is never written
so. -/
theorem roundTrips_orNull {x : Option β} (h : ∀ y ∈ x, RoundTrips write read y)
    (hnull : ∀ y, write y ≠ .null) : RoundTrips (·.elim .null write) (orNull? read) x := by
  cases x with
  | none => exact ⟨readsBack_null, rfl⟩
  | some y =>
    have hread : orNull? read (write y) = (read (write y)).map some := by
      simp [orNull?, hnull]
    exact ⟨(h y rfl).readsBack, by simp [hread, (h y rfl).read_write]⟩

/-- A record that is written with its own fields, each at most once, is understood as these. -/
theorem record?_ofMembers {fields : List String} (openness : Openness)
    {members : List (String × Json)} (hknown : ∀ member ∈ members, member.1 ∈ fields)
    (hnodup : (members.map Prod.fst).Nodup) :
    (ofMembers members).record? fields openness =
      some { given := members, positional := false } := by
  have hfilter : members.filter (fields.contains ·.1) = members := by
    simpa using hknown
  have hall : Fields.ofMembers? fields openness members = some ⟨members, false⟩ := by
    simp only [Fields.ofMembers?, hfilter, ne_eq, not_true_eq_false, and_false, if_false,
      if_pos hnodup]
  rw [ofMembers_eq, record?, mapM_map_eq_some]
  · exact hall
  · intro member _
    simp [spelledMember, unescape?_escape]

/-- A record makes a round trip if the values of its fields are read back and are together
understood as the record. -/
theorem RoundTrips.of_record {fields : List String} {openness : Openness}
    {members : List (String × Json)} {build : Fields Json → Option β} {x : β}
    (hwrite : write x = ofMembers members)
    (hread : ∀ json, read json = json.record? fields openness >>= build)
    (hknown : ∀ member ∈ members, member.1 ∈ fields) (hnodup : (members.map Prod.fst).Nodup)
    (hvalues : ∀ member ∈ members, ReadsBack member.2)
    (hbuild : build { given := members, positional := false } = some x) :
    RoundTrips write read x where
  readsBack := hwrite ▸ readsBack_ofMembers hvalues
  read_write := by
    rw [hwrite, hread, record?_ofMembers openness hknown hnodup]
    exact hbuild

/-- A name alone is a choice that carries nothing. -/
theorem choice?_ofText (name : String) : (ofText name).choice? = some (name, none) := by
  simp [ofText, choice?, unescape?_escape]

/-- A name with what it carries is a choice. -/
theorem choice?_ofMembers (name : String) (payload : Json) :
    (ofMembers [(name, payload)]).choice? = some (name, some payload) := by
  simp [ofMembers, choice?, unescape?_escape]

end Json

end BlockFlow
