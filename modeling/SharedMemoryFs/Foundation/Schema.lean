import SharedMemoryFs.Foundation.Values

/-!
# Shapes of values

A shape says which own keys an object may have and what each of them holds, down to
the values that are judged as a whole.
-/

namespace SharedMemoryFs
namespace Foundation

/-- The keys of a {lit}`record` are names of options, those of a {lit}`dictionary` are
data. -/
inductive Shape where
  | leaf (fits : Value -> Bool)
  | record (fields : List (String × Shape))
  | dictionary (item : Shape)
  | either (first second : Shape)

def Value.isRecord : Value -> Bool
  | object _ => true
  | derived _ _ => true
  | _ => false

namespace Shape

mutual

def fits : Shape -> Value -> Bool
  | leaf judge, value => judge value
  | record fields, value =>
      value.isRecord && value.keys.all (fun key => fieldFits fields key (value.get key))
  | dictionary item, value =>
      value.isRecord && value.keys.all (fun key => item.fits (value.get key))
  | either first second, value => first.fits value || second.fits value

/-- The key is one of the fields, and its value fits there. -/
def fieldFits : List (String × Shape) -> String -> Value -> Bool
  | [], _, _ => false
  | (name, shape) :: rest, key, value =>
      if key = name then shape.fits value else fieldFits rest key value

end

/-- Any value at all. -/
def anything : Shape := leaf (fun _ => true)

def optional (shape : Shape) : Shape := either (leaf Value.isUndefined) shape

theorem fits_leaf {judge : Value -> Bool} {value : Value} :
    (leaf judge).fits value = judge value := rfl

theorem fits_either {first second : Shape} {value : Value} :
    (either first second).fits value = true <->
      first.fits value = true ∨ second.fits value = true := by
  show (first.fits value || second.fits value) = true <-> _
  rw [Bool.or_eq_true]

theorem fits_optional {shape : Shape} {value : Value} :
    shape.optional.fits value = true <-> value.isUndefined = true ∨ shape.fits value = true :=
  fits_either

theorem fits_dictionary {item : Shape} {value : Value} :
    (dictionary item).fits value = true <-> value.isRecord = true ∧
      forall key, key ∈ value.keys -> item.fits (value.get key) = true := by
  show (value.isRecord && value.keys.all _) = true <-> _
  rw [Bool.and_eq_true, List.all_eq_true]

theorem fieldFits_iff {fields : List (String × Shape)} {key : String} {value : Value} :
    fieldFits fields key value = true <->
      exists shape, fields.lookup key = some shape ∧ shape.fits value = true := by
  induction fields with
  | nil =>
      constructor
      · intro h
        cases h
      · intro h
        rcases h with ⟨shape, hlookup, _⟩
        cases hlookup
  | cons field rest ih =>
      rcases field with ⟨name, shape⟩
      rw [OrderedMap.lookup_cons_eq_ite]
      show (if key = name then shape.fits value else fieldFits rest key value) = true <-> _
      split
      next heq =>
        constructor
        · intro h
          exact ⟨shape, rfl, h⟩
        · intro h
          rcases h with ⟨other, hother, hfits⟩
          rw [Option.some.inj hother]
          exact hfits
      next => exact ih

theorem fits_record {fields : List (String × Shape)} {value : Value} :
    (record fields).fits value = true <-> value.isRecord = true ∧
      forall key, key ∈ value.keys ->
        exists shape, fields.lookup key = some shape ∧ shape.fits (value.get key) = true := by
  show (value.isRecord && value.keys.all _) = true <-> _
  rw [Bool.and_eq_true, List.all_eq_true]
  simp only [fieldFits_iff]

/-- A record whose fields ask for less fits as well. -/
theorem record_mono {fields fields' : List (String × Shape)} {value : Value}
    (h : (record fields).fits value = true)
    (hfields : forall key shape, fields.lookup key = some shape ->
      exists shape', fields'.lookup key = some shape' ∧
        (shape.fits (value.get key) = true -> shape'.fits (value.get key) = true)) :
    (record fields').fits value = true := by
  rcases fits_record.mp h with ⟨hrecord, hkeys⟩
  refine fits_record.mpr ⟨hrecord, ?_⟩
  intro key hkey
  rcases hkeys key hkey with ⟨shape, hlookup, hfits⟩
  rcases hfields key shape hlookup with ⟨shape', hlookup', himp⟩
  exact ⟨shape', hlookup', himp hfits⟩

theorem exists_lookup {fields : List (String × Shape)} {key : String}
    (h : key ∈ fields.map Prod.fst) :
    exists shape, fields.lookup key = some shape ∧ (key, shape) ∈ fields := by
  induction fields with
  | nil => cases h
  | cons field rest ih =>
      rcases field with ⟨name, shape⟩
      rw [OrderedMap.lookup_cons_eq_ite]
      split
      next heq =>
        rw [heq]
        exact ⟨shape, rfl, List.mem_cons_self⟩
      next hne =>
        rw [List.map_cons, List.mem_cons] at h
        rcases ih (h.resolve_left hne) with ⟨other, hlookup, hmem⟩
        exact ⟨other, hlookup, List.mem_cons_of_mem _ hmem⟩

theorem mem_fields {fields : List (String × Shape)} {key : String} {shape : Shape}
    (h : fields.lookup key = some shape) : (key, shape) ∈ fields := by
  induction fields with
  | nil => cases h
  | cons field rest ih =>
      rcases field with ⟨name, first⟩
      rw [OrderedMap.lookup_cons_eq_ite] at h
      split at h
      next heq =>
        rw [heq, ← Option.some.inj h]
        exact List.mem_cons_self
      next => exact List.mem_cons_of_mem _ (ih h)

/-- An object with no other keys than the fields, each of which fits. -/
theorem record_of_fields {fields : List (String × Shape)} {value : Value}
    (hrecord : value.isRecord = true)
    (hknown : forall key, key ∈ value.keys -> key ∈ fields.map Prod.fst)
    (hfields : forall field, field ∈ fields -> field.2.fits (value.get field.1) = true) :
    (record fields).fits value = true := by
  refine fits_record.mpr ⟨hrecord, ?_⟩
  intro key hkey
  rcases exists_lookup (hknown key hkey) with ⟨shape, hlookup, hmem⟩
  exact ⟨shape, hlookup, hfields _ hmem⟩

/-- Only the names of the fields are asked for. -/
theorem record_names {fields fields' : List (String × Shape)} {value : Value}
    (h : (record fields).fits value = true)
    (hnames : forall name, name ∈ fields.map Prod.fst -> fields'.lookup name = some anything) :
    (record fields').fits value = true := by
  apply record_mono h
  intro key shape hlookup
  have hmem := @List.mem_map_of_mem _ _ _ _ Prod.fst (mem_fields hlookup)
  exact ⟨anything, hnames key hmem, fun _ => rfl⟩

end Shape

end Foundation
end SharedMemoryFs
