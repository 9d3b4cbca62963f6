import SharedMemoryFs.Config.Selection

/-!
# Overrides

An override is meant to replace one option of the defaults or of one place.  Its
dotted key is split into names, collected and merged; the names reach the option they
mean when the name of the place has no dot.
-/

namespace SharedMemoryFs
namespace Config

open Foundation

/-!
# Replacing an option
-/

/-- What an option is written into: an object as it is, a new one for anything else. -/
def container (value : Value) : Value := if isObject value then value else Value.object []

def ownOr (value : Value) (name : String) : Value := (value.own.lookup name).getD Value.undefined

/-- A config with the option at a path replaced. -/
def withOption (base : Value) : List String -> Value -> Value
  | [], value => value
  | part :: rest, value =>
      (container base).put part (withOption (ownOr (container base) part) rest value)

/-- What is written at a path. -/
def optionAt (base : Value) : List String -> Option Value
  | [] => some base
  | part :: rest =>
      if isObject base then (base.own.lookup part).bind (fun child => optionAt child rest)
      else none

/-- What merging one option does: every object on the way is copied, with what it
inherits at the next name. -/
def overlay (base : Value) : List String -> Value -> Value
  | [], value => value
  | part :: rest, value => base.spread.put part (overlay (container (base.get part)) rest value)

/-- The raw config that is resolved when there are no arguments. -/
def baseOf (appConfig : Value) : Value := (deepClone appConfig).spread

def Safe (path : List String) : Prop := forall part, part ∈ path -> part ∉ unsafeKeys

instance (path : List String) : Decidable (Safe path) :=
  inferInstanceAs (Decidable (forall part, part ∈ path -> part ∉ unsafeKeys))

theorem Safe.ne_proto {part : String} {rest : List String} (h : Safe (part :: rest)) :
    part ≠ Value.protoKey := by
  intro heq
  apply h part List.mem_cons_self
  rw [heq]
  decide

theorem Safe.tail {part : String} {rest : List String} (h : Safe (part :: rest)) : Safe rest :=
  fun other hother => h other (List.mem_cons_of_mem _ hother)

/-!
# Tidy values
-/

mutual

/-- Objects without prototypes of their own, each with distinct keys. -/
def tidy : Value -> Bool
  | Value.object entries => decide (entries.map Prod.fst).Nodup && tidyIn entries
  | Value.derived _ _ => false
  | _ => true

def tidyIn : List (String × Value) -> Bool
  | [] => true
  | (key, value) :: rest => key != Value.protoKey && tidy value && tidyIn rest

end

theorem tidyIn_iff {entries : Entries} :
    tidyIn entries = true <->
      forall entry, entry ∈ entries -> entry.1 ≠ Value.protoKey ∧ tidy entry.2 = true := by
  induction entries with
  | nil => refine ⟨fun _ entry hentry => absurd hentry List.not_mem_nil, fun _ => rfl⟩
  | cons entry rest ih =>
      rcases entry with ⟨key, value⟩
      show (key != Value.protoKey && tidy value && tidyIn rest) = true <-> _
      rw [Bool.and_eq_true, Bool.and_eq_true, bne_iff_ne, ih]
      constructor
      · intro h entry hentry
        cases List.mem_cons.mp hentry with
        | inl heq =>
            rw [heq]
            exact h.1
        | inr hmem => exact h.2 entry hmem
      · intro h
        exact ⟨h (key, value) List.mem_cons_self,
          fun entry hentry => h entry (List.mem_cons_of_mem _ hentry)⟩

theorem tidy_object {entries : Entries} :
    tidy (Value.object entries) = true <-> (entries.map Prod.fst).Nodup ∧
      forall entry, entry ∈ entries -> entry.1 ≠ Value.protoKey ∧ tidy entry.2 = true := by
  show (decide _ && tidyIn entries) = true <-> _
  rw [Bool.and_eq_true, decide_eq_true_eq, tidyIn_iff]

theorem mem_of_lookup {entries : Entries} {name : String} {value : Value}
    (h : entries.lookup name = some value) : (name, value) ∈ entries := by
  induction entries with
  | nil => cases h
  | cons entry rest ih =>
      rw [OrderedMap.lookup_cons_eq_ite] at h
      split at h
      next heq =>
        rw [heq, ← Option.some.inj h]
        exact List.mem_cons_self
      next => exact List.mem_cons_of_mem _ (ih h)

theorem mem_setEntries {entries : Entries} {name : String} {value : Value}
    {entry : String × Value} (h : entry ∈ OrderedMap.setEntries name value entries) :
    entry = (name, value) ∨ entry ∈ entries := by
  induction entries with
  | nil => exact Or.inl (List.mem_singleton.mp h)
  | cons first rest ih =>
      unfold OrderedMap.setEntries at h
      split at h
      · cases List.mem_cons.mp h with
        | inl heq => exact Or.inl heq
        | inr hmem => exact Or.inr (List.mem_cons_of_mem _ hmem)
      · cases List.mem_cons.mp h with
        | inl heq => exact Or.inr (heq ▸ List.mem_cons_self)
        | inr hmem =>
            cases ih hmem with
            | inl heq => exact Or.inl heq
            | inr hrest => exact Or.inr (List.mem_cons_of_mem _ hrest)

theorem tidy_cases {value : Value} (h : tidy value = true) :
    exists entries, container value = Value.object entries ∧
      tidy (Value.object entries) = true := by
  cases value with
  | object entries => exact ⟨entries, rfl, h⟩
  | derived proto entries => cases h
  | _ => exact ⟨[], rfl, rfl⟩

theorem tidy_lookup {entries : Entries} (h : tidy (Value.object entries) = true)
    {name : String} {value : Value} (hlookup : entries.lookup name = some value) :
    tidy value = true := ((tidy_object.mp h).2 _ (mem_of_lookup hlookup)).2

theorem tidy_ownOr {entries : Entries} (h : tidy (Value.object entries) = true)
    (name : String) : tidy (ownOr (Value.object entries) name) = true := by
  unfold ownOr
  cases hlookup : (Value.object entries).own.lookup name with
  | none => rfl
  | some value => exact tidy_lookup h hlookup

theorem tidy_put {entries : Entries} (h : tidy (Value.object entries) = true) {name : String}
    (hname : name ≠ Value.protoKey) {value : Value} (hvalue : tidy value = true) :
    tidy ((Value.object entries).put name value) = true := by
  rw [Value.put_object hname, tidy_object]
  rcases tidy_object.mp h with ⟨hnodup, hall⟩
  refine ⟨OrderedMap.nodup_setEntries name value hnodup, ?_⟩
  intro entry hentry
  cases mem_setEntries hentry with
  | inl heq =>
      rw [heq]
      exact ⟨hname, hvalue⟩
  | inr hmem => exact hall entry hmem

/-- A tidy object has no prototype of its own. -/
theorem tidy_isObject {value : Value} (h : tidy value = true) (hobject : isObject value = true) :
    exists entries, value = Value.object entries := by
  cases value with
  | object entries => exact ⟨entries, rfl⟩
  | derived proto entries => cases h
  | _ => cases hobject

theorem tidy_container {value : Value} (h : tidy value = true) :
    tidy (container value) = true := by
  rcases tidy_cases h with ⟨entries, hentries, htidy⟩
  rw [hentries]
  exact htidy

/-- Below an object without a prototype of its own, only what is written is an object. -/
theorem container_get {entries : Entries} {name : String} (hname : name ≠ Value.protoKey) :
    container ((Value.object entries).get name) = container (ownOr (Value.object entries) name) := by
  unfold ownOr
  rw [Value.get_object]
  show container ((entries.lookup name).getD _) = container ((entries.lookup name).getD _)
  cases entries.lookup name with
  | some value => rfl
  | none =>
      unfold container
      cases hobject : isObject (Value.inherited name) with
      | true => exact absurd (inherited_isObject hobject) hname
      | false =>
          rw [Option.getD_none, hobject]
          rfl

theorem isObject_container (value : Value) : isObject (container value) = true := by
  unfold container
  split
  next h => exact h
  next => rfl

theorem container_of_isObject {value : Value} (h : isObject value = true) :
    container value = value := if_pos h

theorem container_container (value : Value) : container (container value) = container value :=
  container_of_isObject (isObject_container value)

theorem withOption_container (value v : Value) (part : String) (rest : List String) :
    withOption (container value) (part :: rest) v = withOption value (part :: rest) v := by
  unfold withOption
  rw [container_container]

theorem isObject_put {target : Value} (h : isObject target = true) (name : String)
    (value : Value) : isObject (target.put name value) = true := by
  cases target with
  | object entries =>
      unfold Value.put
      dsimp only
      split
      · split <;> rfl
      · rfl
  | derived proto entries =>
      unfold Value.put
      dsimp only
      split
      · split <;> rfl
      · rfl
  | _ => cases h

theorem isObject_cloneInto {result : Value} {entries : Entries} (h : isObject result = true) :
    isObject (cloneInto result entries) = true := by
  induction entries generalizing result with
  | nil => exact h
  | cons entry rest ih =>
      rcases entry with ⟨key, value⟩
      exact ih (isObject_put h key (deepClone value))

theorem isObject_deepClone {value : Value} (h : isObject value = true) :
    isObject (deepClone value) = true := by
  cases value with
  | object entries => exact isObject_cloneInto rfl
  | derived proto entries => exact isObject_cloneInto rfl
  | _ => cases h

/-!
# One option, collected and merged
-/

theorem setNested_tidy {text : String} {path : List String} {obj value : Value}
    (hobject : isObject obj = true) (htidy : tidy obj = true) (hsafe : Safe path)
    (hpath : path ≠ []) :
    setNested text obj path value = Except.ok (withOption obj path value) := by
  induction path generalizing obj with
  | nil => exact absurd rfl hpath
  | cons part rest ih =>
      rcases tidy_isObject htidy hobject with ⟨entries, heq⟩
      have hchild : tidy (ownOr obj part) = true := by
        rw [heq] at htidy ⊢
        exact tidy_ownOr htidy part
      have hensure : ensure (!unsafeKeys.contains part)
          ["unsafe CLI key \"", text, "\""] = Except.ok () := by
        refine ensure_ok.mpr ?_
        rw [Bool.not_eq_true', ← Bool.not_eq_true, List.contains_iff_mem]
        exact hsafe part List.mem_cons_self
      cases rest with
      | nil =>
          refine bind_ok.mpr ⟨(), hensure, ?_⟩
          unfold withOption
          rw [container_of_isObject hobject]
          rfl
      | cons next rest =>
          have hinner : container (obj.get part) = container (ownOr obj part) := by
            rw [heq]
            exact container_get hsafe.ne_proto
          have hrest := ih (isObject_container (ownOr obj part))
            (tidy_container hchild) hsafe.tail (List.cons_ne_nil _ _)
          rw [withOption_container, ← hinner] at hrest
          refine bind_ok.mpr ⟨(), hensure, bind_ok.mpr ⟨_, hrest, ?_⟩⟩
          conv_rhs => unfold withOption
          rw [container_of_isObject hobject]
          rfl

theorem fail_error {alpha : Type} (message : List Piece) :
    exists thrown, (fail message : Except Thrown alpha) = Except.error thrown := by
  unfold fail
  split
  · exact ⟨_, rfl⟩
  · exact ⟨_, rfl⟩

theorem setNested_refused {text : String} {path : List String} {obj value : Value}
    (hsafe : ¬ Safe path) :
    exists thrown, setNested text obj path value = Except.error thrown := by
  induction path generalizing obj with
  | nil => exact absurd (fun part hpart => absurd hpart List.not_mem_nil) hsafe
  | cons part rest ih =>
      cases hlisted : unsafeKeys.contains part with
      | true =>
          have hfail : exists thrown, (fail ["unsafe CLI key \"", text, "\""] :
              Except Thrown Unit) = Except.error thrown := fail_error _
          rcases hfail with ⟨thrown, hthrown⟩
          have hensure : ensure (!unsafeKeys.contains part)
              ["unsafe CLI key \"", text, "\""] = Except.error thrown := by
            rw [hlisted]
            exact hthrown
          refine ⟨thrown, ?_⟩
          cases rest with
          | nil =>
              show (ensure (!unsafeKeys.contains part) _ >>= _) = _
              rw [hensure]
              rfl
          | cons next rest =>
              show (ensure (!unsafeKeys.contains part) _ >>= _) = _
              rw [hensure]
              rfl
      | false =>
          have hensure : ensure (!unsafeKeys.contains part)
              ["unsafe CLI key \"", text, "\""] = Except.ok () := by
            rw [hlisted]
            rfl
          have hrest : ¬ Safe rest := by
            intro hsafe'
            apply hsafe
            intro other hother
            cases List.mem_cons.mp hother with
            | inl heq =>
                rw [heq, ← List.contains_iff_mem, hlisted]
                exact Bool.false_ne_true
            | inr hmem => exact hsafe' other hmem
          cases rest with
          | nil => exact absurd (fun part hpart => absurd hpart List.not_mem_nil) hrest
          | cons next rest =>
              have hinner : exists thrown, setNested text (container (obj.get part))
                  (next :: rest) value = Except.error thrown := ih hrest
              rcases hinner with ⟨thrown, hthrown⟩
              refine ⟨thrown, ?_⟩
              show (ensure (!unsafeKeys.contains part) _ >>= fun _ =>
                setNested text (container (obj.get part)) (next :: rest) value >>= _) = _
              rw [hensure, hthrown]
              rfl

theorem mergeDeep_object (target : Value) (entries : Entries) :
    mergeDeep target (Value.object entries) = mergeInto target target.spread entries := rfl

theorem mergeInto_cons (target result : Value) (key : String) (value : Value) (rest : Entries) :
    mergeInto target result ((key, value) :: rest) =
      mergeInto target
        (result.put key
          (if isObject value then mergeDeep (container (target.get key)) value else value))
        rest := rfl

theorem withOption_undefined (part : String) (rest : List String) (value : Value)
    (hpart : part ≠ Value.protoKey) :
    withOption Value.undefined (part :: rest) value =
      Value.object [(part, withOption Value.undefined rest value)] := by
  show (Value.object []).put part _ = _
  rw [Value.put_object hpart]
  rfl

/-- Merging one option copies the objects on its way. -/
theorem merge_one {target value : Value} {path : List String} (hvalue : isObject value = false)
    (hsafe : Safe path) (hpath : path ≠ []) :
    mergeDeep target (withOption (Value.object []) path value) = overlay target path value := by
  induction path generalizing target with
  | nil => exact absurd rfl hpath
  | cons part rest ih =>
      have hone : withOption (Value.object []) (part :: rest) value =
          Value.object [(part, withOption Value.undefined rest value)] :=
        withOption_undefined part rest value hsafe.ne_proto
      rw [hone, mergeDeep_object, mergeInto_cons]
      show target.spread.put part _ = target.spread.put part _
      cases rest with
      | nil =>
          show target.spread.put part (if isObject value then _ else value) = _
          rw [hvalue]
          rfl
      | cons next rest =>
          have hinner : mergeDeep (container (target.get part))
              (withOption (Value.object []) (next :: rest) value) =
                overlay (container (target.get part)) (next :: rest) value :=
            ih hsafe.tail (List.cons_ne_nil _ _)
          have hsome : withOption Value.undefined (next :: rest) value =
              withOption (Value.object []) (next :: rest) value := rfl
          have hobject : isObject (withOption Value.undefined (next :: rest) value) = true := by
            rw [withOption_undefined next rest value hsafe.tail.ne_proto]
            rfl
          rw [hobject, if_pos rfl, hsome, hinner]

/-!
# When merging replaces
-/

/-- No object on the way has a prototype of its own. -/
def Clear : Value -> List String -> Prop
  | _, [] => True
  | value, part :: rest =>
      isDerived value = false ∧
        forall child, (container value).own.lookup part = some child -> Clear child rest

/-- From the config on: what it inherits at the first name adds nothing either. -/
def ClearFrom (config : Value) (path : List String) (value : Value) : Prop :=
  forall part rest, path = part :: rest ->
    (forall child, config.own.lookup part = some child -> Clear child rest) ∧
      (config.own.lookup part = none -> isObject (config.get part) = true ->
        overlay (config.get part) rest value = withOption Value.undefined rest value)

theorem clear_undefined (path : List String) : Clear Value.undefined path := by
  cases path with
  | nil => trivial
  | cons part rest =>
      refine ⟨rfl, ?_⟩
      intro child hchild
      cases hchild

theorem put_object_inj {entries : Entries} {name : String} (hname : name ≠ Value.protoKey)
    {v w : Value} (h : (Value.object entries).put name v = (Value.object entries).put name w) :
    v = w := by
  have hget : ((Value.object entries).put name v).get name =
      ((Value.object entries).put name w).get name := by rw [h]
  rw [Value.get_put_object hname, Value.get_put_object hname, if_pos rfl, if_pos rfl] at hget
  exact hget

theorem container_cases (value : Value) :
    (exists entries, container value = Value.object entries ∧ isDerived value = false) ∨
      exists proto entries, value = Value.derived proto entries := by
  cases value with
  | object entries => exact Or.inl ⟨entries, rfl, rfl⟩
  | derived proto entries => exact Or.inr ⟨proto, entries, rfl⟩
  | _ => exact Or.inl ⟨[], rfl, rfl⟩

theorem overlay_eq_iff {start value : Value} {path : List String} (hsafe : Safe path)
    (hpath : path ≠ []) :
    overlay (container start) path value = withOption start path value <->
      Clear start path := by
  induction path generalizing start with
  | nil => exact absurd rfl hpath
  | cons part rest ih =>
      have hproto := hsafe.ne_proto
      unfold overlay withOption Clear
      rcases container_cases start with ⟨entries, hentries, hplain⟩ | ⟨proto, entries, hderived⟩
      · rw [hentries]
        have hspread : (Value.object entries).spread = Value.object entries := rfl
        rw [hspread, container_get hproto]
        have hchild : overlay (container (ownOr (Value.object entries) part)) rest value =
            withOption (ownOr (Value.object entries) part) rest value <->
              Clear (ownOr (Value.object entries) part) rest := by
          cases rest with
          | nil => exact ⟨fun _ => trivial, fun _ => rfl⟩
          | cons next rest => exact ih hsafe.tail (List.cons_ne_nil _ _)
        constructor
        · intro h
          refine ⟨hplain, ?_⟩
          intro child hlookup
          have hclear := hchild.mp (put_object_inj hproto h)
          unfold ownOr at hclear
          rw [hlookup] at hclear
          exact hclear
        · intro h
          have hclear : Clear (ownOr (Value.object entries) part) rest := by
            unfold ownOr
            cases hlookup : (Value.object entries).own.lookup part with
            | none => exact clear_undefined rest
            | some child => exact h.2 child hlookup
          rw [hchild.mpr hclear]
      · rw [hderived]
        constructor
        · intro h
          change (Value.object entries).put part _ = (Value.derived proto entries).put part _ at h
          rw [Value.put_object hproto, Value.put_derived hproto] at h
          cases h
        · intro h
          cases h.1

theorem get_of_own {config child : Value} {name : String} (hobject : isObject config = true)
    (h : config.own.lookup name = some child) : config.get name = child := by
  cases config with
  | object entries =>
      show (entries.lookup name).getD _ = child
      rw [show entries.lookup name = some child from h]
      rfl
  | derived proto entries =>
      show (entries.lookup name).getD _ = child
      rw [show entries.lookup name = some child from h]
      rfl
  | _ => cases hobject

theorem overlay_from_iff {config value : Value} {part : String} {rest : List String}
    (hobject : isObject config = true) (hsafe : Safe (part :: rest)) :
    overlay config (part :: rest) value = withOption config.spread (part :: rest) value <->
      ClearFrom config (part :: rest) value := by
  have hinj : overlay config (part :: rest) value =
      withOption config.spread (part :: rest) value <->
        overlay (container (config.get part)) rest value =
          withOption (ownOr config part) rest value := by
    constructor
    · exact fun h => put_object_inj hsafe.ne_proto h
    · intro h
      exact congrArg (config.spread.put part) h
  rw [hinj]
  have hnested : forall start, overlay (container start) rest value =
      withOption start rest value <-> Clear start rest := by
    intro start
    cases rest with
    | nil => exact ⟨fun _ => trivial, fun _ => rfl⟩
    | cons next rest => exact overlay_eq_iff hsafe.tail (List.cons_ne_nil _ _)
  unfold ClearFrom ownOr
  cases hlookup : config.own.lookup part with
  | some child =>
      rw [get_of_own hobject hlookup, Option.getD_some, hnested]
      constructor
      · intro h part' rest' heq
        cases heq
        rw [hlookup]
        refine ⟨?_, fun hnone => absurd hnone (Option.some_ne_none child)⟩
        intro other hother
        rw [← Option.some.inj hother]
        exact h
      · intro h
        exact (h part rest rfl).1 child hlookup
  | none =>
      rw [Option.getD_none]
      constructor
      · intro h part' rest' heq
        cases heq
        rw [hlookup]
        refine ⟨fun other hsome => absurd hsome.symm (Option.some_ne_none other),
          fun _ hfound => ?_⟩
        rw [container_of_isObject hfound] at h
        exact h
      · intro h
        cases hfound : isObject (config.get part) with
        | true =>
            rw [container_of_isObject hfound]
            exact (h part rest rfl).2 hlookup hfound
        | false =>
            have hempty : container (config.get part) = container Value.undefined := by
              unfold container
              rw [hfound]
              rfl
            rw [hempty]
            exact (hnested Value.undefined).mpr (clear_undefined rest)

theorem setEntries_self {entries : Entries} {name : String} {value : Value}
    (h : entries.lookup name = some value) :
    OrderedMap.setEntries name value entries = entries := by
  induction entries with
  | nil => cases h
  | cons entry rest ih =>
      rw [OrderedMap.lookup_cons_eq_ite] at h
      unfold OrderedMap.setEntries
      split at h
      next heq =>
        rw [if_pos heq.symm, heq, ← Option.some.inj h]
      next hne => rw [if_neg (fun heq => hne heq.symm), ih h]

/-- Writing changes nothing exactly when the value is there. -/
theorem put_eq_self_iff {entries : Entries} {name : String} (hname : name ≠ Value.protoKey)
    {value : Value} :
    (Value.object entries).put name value = Value.object entries <->
      entries.lookup name = some value := by
  rw [Value.put_object hname]
  constructor
  · intro h
    have hlookup := OrderedMap.lookup_setEntries name name value entries
    rw [Value.object.inj h, if_pos rfl] at hlookup
    exact hlookup
  · intro h
    rw [setEntries_self h]

/-- A merge that changes nothing met no prototype on its way. -/
theorem clear_of_overlay_self {start value : Value} {path : List String} (hsafe : Safe path)
    (hobject : isObject start = true) (h : overlay start path value = start) :
    Clear start path := by
  induction path generalizing start with
  | nil => trivial
  | cons part rest ih =>
      have hproto := hsafe.ne_proto
      have hput : (Value.object start.own).put part
          (overlay (container (start.get part)) rest value) = start := h
      cases start with
      | object entries =>
          have hlookup := (put_eq_self_iff hproto).mp hput
          refine ⟨rfl, ?_⟩
          intro child hchild
          have hfound : (Value.object entries).get part = child :=
            get_of_own rfl hchild
          have hsame : overlay (container child) rest value = child := by
            rw [← hfound] at hchild ⊢
            exact Option.some.inj (hlookup.symm.trans hchild)
          cases rest with
          | nil => trivial
          | cons next rest =>
              have hchildObject : isObject child = true := by
                rw [← hsame]
                unfold overlay
                exact isObject_put rfl _ _
              rw [container_of_isObject hchildObject] at hsame
              exact ih hsafe.tail hchildObject hsame
      | derived proto entries =>
          rw [Value.put_object hproto] at hput
          cases hput
      | _ => cases hobject

theorem clearFrom_of_overlay_self {config value : Value} {path : List String}
    (hobject : isObject config = true) (hsafe : Safe path)
    (h : overlay config path value = config.spread) : ClearFrom config path value := by
  intro part rest heq
  rw [heq] at h hsafe
  have hproto := hsafe.ne_proto
  have hlookup : config.own.lookup part =
      some (overlay (container (config.get part)) rest value) :=
    (put_eq_self_iff hproto).mp h
  refine ⟨?_, ?_⟩
  · intro child hchild
    rw [get_of_own hobject hchild, hchild] at hlookup
    have hsame := Option.some.inj hlookup
    cases rest with
    | nil => trivial
    | cons next rest =>
        have hchildObject : isObject child = true := by
          rw [hsame]
          unfold overlay
          exact isObject_put rfl _ _
        rw [container_of_isObject hchildObject] at hsame
        exact clear_of_overlay_self hsafe.tail hchildObject hsame.symm
  · intro hnone
    rw [hnone] at hlookup
    cases hlookup

/-- Writing below two different names of one object gives the same when neither changes
anything. -/
theorem split_eq_iff {config value : Value} {top first second : String}
    {rest rest' : List String} (hobject : isObject config = true)
    (hsafe : Safe (top :: first :: rest)) (hsecond : second ≠ Value.protoKey)
    (hne : first ≠ second) :
    overlay config (top :: first :: rest) value =
        withOption config.spread (top :: second :: rest') value <->
      overlay config (top :: first :: rest) value = config.spread ∧
        withOption config.spread (top :: second :: rest') value = config.spread := by
  constructor
  · intro h
    have hbelow : (container (config.get top)).spread.put first
          (overlay (container ((container (config.get top)).get first)) rest value) =
        (container (ownOr config top)).put second
          (withOption (ownOr (container (ownOr config top)) second) rest' value) :=
      put_object_inj hsafe.ne_proto h
    generalize hx : overlay (container ((container (config.get top)).get first)) rest value = x
      at hbelow
    generalize hy : withOption (ownOr (container (ownOr config top)) second) rest' value = y
      at hbelow
    have hfirst := hsafe.tail.ne_proto
    cases hlookup : config.own.lookup top with
    | none =>
        -- The second name alone is written into an empty object, the first one is missing.
        exfalso
        unfold ownOr at hbelow
        rw [hlookup] at hbelow
        have hget : ((container (config.get top)).spread.put first x).own.lookup first =
            (((Value.object []).put second y)).own.lookup first := by
          rw [hbelow]
          rfl
        rw [own_put rfl hfirst, own_put rfl hsecond, OrderedMap.lookup_setEntries,
          OrderedMap.lookup_setEntries, if_pos rfl, if_neg hne] at hget
        cases hget
    | some child =>
        have hchild : config.get top = child := get_of_own hobject hlookup
        have hown : ownOr config top = child := by
          unfold ownOr
          rw [hlookup]
          rfl
        rw [hchild, hown] at hbelow
        have hplain : exists entries, container child = Value.object entries := by
          rcases container_cases child with ⟨entries, hentries, _⟩ | ⟨proto, entries, hderived⟩
          · exact ⟨entries, hentries⟩
          · exfalso
            rw [hderived] at hbelow
            change (Value.object entries).put first x =
              (Value.derived proto entries).put second y at hbelow
            rw [Value.put_object hfirst, Value.put_derived hsecond] at hbelow
            cases hbelow
        rcases hplain with ⟨entries, hentries⟩
        rw [hentries] at hbelow
        change (Value.object entries).put first x = (Value.object entries).put second y at hbelow
        rw [Value.put_object hfirst, Value.put_object hsecond] at hbelow
        have hsame := Value.object.inj hbelow
        have hx' : entries.lookup first = some x := by
          have hat := congrArg (List.lookup first) hsame
          rw [OrderedMap.lookup_setEntries, OrderedMap.lookup_setEntries, if_pos rfl,
            if_neg hne] at hat
          exact hat.symm
        have hy' : entries.lookup second = some y := by
          have hat := congrArg (List.lookup second) hsame
          rw [OrderedMap.lookup_setEntries, OrderedMap.lookup_setEntries, if_pos rfl,
            if_neg (fun heq => hne heq.symm)] at hat
          exact hat
        have hcontainer : container child = child := by
          unfold container at hentries ⊢
          split at hentries
          next hobj => rw [if_pos hobj]
          next hobj =>
            exfalso
            cases hentries
            cases hx'
        have hleft : overlay config (top :: first :: rest) value = config.spread := by
          apply (put_eq_self_iff hsafe.ne_proto).mpr
          rw [hlookup, hchild]
          show some child = some ((container child).spread.put first _)
          rw [hchild] at hx
          rw [hx, hentries]
          show some child = some ((Value.object entries).put first x)
          rw [(put_eq_self_iff hfirst).mpr hx', ← hentries, hcontainer]
        exact ⟨hleft, h.symm.trans hleft⟩
  · intro h
    rw [h.1, h.2]

/-!
# Arguments
-/

/-- The dotted key of a path. -/
def joined (path : List String) : List Char := List.intercalate ['.'] (path.map String.toList)

/-- {lit}`--vfs.<path>=<value>`. -/
def overrideArg (path : List String) (value : String) : String :=
  String.ofList (vfsOption ++ joined path ++ '=' :: value.toList)

/-- The names a path is split into. -/
def pieces (path : List String) : List String := path.flatMap (fun part => parts part.toList)

/-- What an override is about. -/
inductive Target where
  | defaults
  | place (name : PlaceName)

def Target.path : Target -> List String -> List String
  | defaults, option => "defaults" :: option
  | place name, option => "places" :: name :: option

/-- The names of an option are written between dots and in front of the value. -/
def Writable (option : List String) : Prop :=
  option ≠ [] ∧ forall part, part ∈ option -> '.' ∉ part.toList ∧ '=' ∉ part.toList

instance (option : List String) : Decidable (Writable option) :=
  inferInstanceAs (Decidable (option ≠ [] ∧
    forall part, part ∈ option -> '.' ∉ part.toList ∧ '=' ∉ part.toList))

/-- The override reaches exactly the option it means: the config that is resolved is the one
without it, with that option replaced. -/
def Reaches (appConfig : Value) (path : List String) (value : String) : Prop :=
  exists parsed, parseArgv ["--", overrideArg path value] = Except.ok parsed ∧
    parsed.enable = [] ∧ parsed.disable = [] ∧
    merged appConfig parsed = withOption (baseOf appConfig) path (coerce value)

theorem isObject_coerce (value : String) : isObject (coerce value) = false := by
  unfold coerce
  split
  · rfl
  · split
    · rfl
    · split
      · rfl
      · rfl

theorem parts_joined {path : List String} (hpath : path ≠ []) :
    parts (joined path) = pieces path := by
  induction path with
  | nil => exact absurd rfl hpath
  | cons part rest ih =>
      cases rest with
      | nil =>
          show parts (List.intercalate ['.'] [part.toList]) = [part].flatMap _
          rw [List.intercalate_singleton, List.flatMap_singleton]
      | cons next rest =>
          have hjoined : joined (part :: next :: rest) =
              part.toList ++ '.' :: joined (next :: rest) := by
            unfold joined
            rw [List.map_cons, List.map_cons, List.intercalate_cons_cons]
            simp
          unfold pieces
          rw [List.flatMap_cons]
          have hrest := ih (List.cons_ne_nil _ _)
          unfold pieces at hrest
          rw [← hrest, hjoined]
          unfold parts
          rw [List.splitOn_append_cons_self, List.map_append]

theorem parts_of_dotless {part : String} (h : '.' ∉ part.toList) : parts part.toList = [part] := by
  unfold parts
  rw [List.splitOn_eq_singleton h, List.map_singleton, String.ofList_toList]

theorem pieces_of_dotless {path : List String}
    (h : forall part, part ∈ path -> '.' ∉ part.toList) : pieces path = path := by
  induction path with
  | nil => rfl
  | cons part rest ih =>
      have hrest := ih (fun other hother => h other (List.mem_cons_of_mem _ hother))
      unfold pieces at hrest ⊢
      rw [List.flatMap_cons, hrest, parts_of_dotless (h part List.mem_cons_self)]
      rfl

theorem not_mem_joined {path : List String}
    (h : forall part, part ∈ path -> '=' ∉ part.toList) : '=' ∉ joined path := by
  induction path with
  | nil => exact List.not_mem_nil
  | cons part rest ih =>
      cases rest with
      | nil =>
          unfold joined
          rw [List.map_singleton, List.intercalate_singleton]
          exact h part List.mem_cons_self
      | cons next rest =>
          have hrest := ih (fun other hother => h other (List.mem_cons_of_mem _ hother))
          unfold joined at hrest ⊢
          rw [List.map_cons, List.map_cons, List.intercalate_cons_cons]
          intro hmem
          simp only [List.mem_append, List.mem_singleton] at hmem
          rcases hmem with (hmem | hmem) | hmem
          · exact h part List.mem_cons_self hmem
          · cases hmem
          · exact hrest hmem

theorem optionOf_overrideArg {path : List String} {value : String}
    (h : forall part, part ∈ path -> '=' ∉ part.toList) :
    optionOf (overrideArg path value) = some (joined path, value.toList) := by
  have hnot := not_mem_joined h
  have hlist : (overrideArg path value).toList =
      vfsOption ++ (joined path ++ '=' :: value.toList) := by
    unfold overrideArg
    rw [String.toList_ofList, List.append_assoc]
  have hdrop : (overrideArg path value).toList.drop 6 = joined path ++ '=' :: value.toList := by
    rw [hlist]
    rfl
  have hkey : forall c, c ∈ joined path -> (c != '=') = true := by
    intro c hc
    rw [bne_iff_ne]
    intro heq
    exact hnot (heq ▸ hc)
  unfold optionOf
  rw [hdrop, hlist, List.isPrefixOf_iff_prefix.mpr (List.prefix_append _ _), Bool.true_and,
    List.contains_iff_mem.mpr (List.mem_append_right _ List.mem_cons_self), if_pos rfl,
    List.takeWhile_append_of_pos hkey, List.dropWhile_append_of_pos hkey,
    List.takeWhile_cons_of_neg (by decide), List.dropWhile_cons_of_neg (by decide),
    List.append_nil, List.drop_one, List.tail_cons]

/-- A key is an override when its path begins with one of the two sections. -/
theorem parseOption_path {parsed : Parsed} {target : Target} {option : List String}
    {value : List Char} (hoption : option ≠ []) :
    parseOption parsed (joined (target.path option)) value =
      (do
        let overrides <- setNested (String.ofList (joined (target.path option)))
          parsed.overrides (pieces (target.path option)) (coerce (String.ofList value))
        return { parsed with overrides }) := by
  have hjoined : exists rest, (joined (target.path option) = "defaults.".toList ++ rest) ∨
      joined (target.path option) = "places.".toList ++ rest := by
    cases target with
    | defaults =>
        cases option with
        | nil => exact absurd rfl hoption
        | cons part rest =>
            refine ⟨joined (part :: rest), Or.inl ?_⟩
            unfold joined Target.path
            rw [List.map_cons, List.map_cons, List.intercalate_cons_cons]
            rfl
    | place name =>
        refine ⟨joined (name :: option), Or.inr ?_⟩
        unfold joined Target.path
        rw [List.map_cons, List.map_cons, List.intercalate_cons_cons]
        rfl
  have hpath : target.path option ≠ [] := by
    cases target <;> exact List.cons_ne_nil _ _
  rw [← parts_joined hpath]
  unfold parseOption
  rcases hjoined with ⟨rest, hdefaults | hplaces⟩
  · have hover : overridable (joined (target.path option)) = true := by
      unfold overridable
      rw [hdefaults, List.isPrefixOf_iff_prefix.mpr (List.prefix_append _ _), Bool.true_or]
    rw [hover, hdefaults]
    rfl
  · have hover : overridable (joined (target.path option)) = true := by
      unfold overridable
      rw [hplaces, List.isPrefixOf_iff_prefix.mpr (List.prefix_append _ _), Bool.or_true]
    rw [hover, hplaces]
    rfl

/-!
# Exactly when
-/

def Target.Valid : Target -> Prop
  | defaults => True
  | place name => validateName name = Except.ok ()

theorem nameChars_of_valid {name : PlaceName} (h : validateName name = Except.ok ()) {c : Char}
    (hc : c ∈ name.toList) : isNameChar c = true := by
  rcases bind_ok.mp h with ⟨_, hname, _⟩
  have hisName := ensure_ok.mp hname
  unfold isName at hisName
  cases hlist : name.toList with
  | nil =>
      rw [hlist] at hc
      cases hc
  | cons first rest =>
      rw [hlist] at hisName hc
      rw [Bool.and_eq_true, List.all_eq_true] at hisName
      cases List.mem_cons.mp hc with
      | inl heq =>
          rw [heq]
          unfold isNameChar
          rw [hisName.1, Bool.true_or, Bool.true_or, Bool.true_or]
      | inr hmem => exact hisName.2 c hmem

/-- The condition on the config, the option and the value. -/
def ReachesWhen (appConfig : Value) (path : List String) (value : String) : Prop :=
  Safe (pieces path) ∧ ClearFrom (deepClone appConfig) (pieces path) (coerce value) ∧
    (pieces path = path ∨
      (withOption (baseOf appConfig) (pieces path) (coerce value) = baseOf appConfig ∧
        withOption (baseOf appConfig) path (coerce value) = baseOf appConfig))

theorem no_equals {target : Target} {option : List String} (hvalid : target.Valid)
    (hwritable : Writable option) :
    forall part, part ∈ target.path option -> '=' ∉ part.toList := by
  intro part hpart
  cases target with
  | defaults =>
      cases List.mem_cons.mp hpart with
      | inl heq =>
          rw [heq]
          decide
      | inr hmem => exact (hwritable.2 part hmem).2
  | place name =>
      cases List.mem_cons.mp hpart with
      | inl heq =>
          rw [heq]
          decide
      | inr hmem =>
          cases List.mem_cons.mp hmem with
          | inl heq =>
              rw [heq]
              intro hc
              have hchar := nameChars_of_valid hvalid hc
              revert hchar
              decide
          | inr hmem => exact (hwritable.2 part hmem).2

theorem parseArgv_override {path : List String} {value : String} {parsed : Parsed}
    (hoption : optionOf (overrideArg path value) = some (joined path, value.toList)) :
    parseArgv ["--", overrideArg path value] = Except.ok parsed <->
      parseOption ⟨Value.object [], [], []⟩ (joined path) value.toList = Except.ok parsed := by
  show parseArgs _ [overrideArg path value] = _ <-> _
  unfold parseArgs
  rw [hoption]
  constructor
  · intro h
    rcases bind_ok.mp h with ⟨next, hnext, hrest⟩
    cases hrest
    exact hnext
  · intro h
    exact bind_ok.mpr ⟨parsed, h, rfl⟩

/-- Whatever the config is, merging compares as replacing does. -/
theorem reaches_iff_overlay {appConfig : Value} {target : Target} {option : List String}
    {value : String} (hvalid : target.Valid) (hwritable : Writable option) :
    Reaches appConfig (target.path option) value <->
      Safe (pieces (target.path option)) ∧
        overlay (deepClone appConfig) (pieces (target.path option)) (coerce value) =
          withOption (baseOf appConfig) (target.path option) (coerce value) := by
  have hoption := @optionOf_overrideArg _ value (no_equals hvalid hwritable)
  have hpieces : pieces (target.path option) ≠ [] := by
    rw [← parts_joined (by cases target <;> exact List.cons_ne_nil _ _)]
    unfold parts
    intro hnil
    exact List.splitOn_ne_nil _ _ (List.map_eq_nil_iff.mp hnil)
  unfold Reaches
  simp only [parseArgv_override hoption, parseOption_path hwritable.1, String.ofList_toList]
  constructor
  · intro h
    rcases h with ⟨parsed, hparsed, _, _, hmerged⟩
    rcases bind_ok.mp hparsed with ⟨overrides, hoverrides, heq⟩
    cases heq
    rcases Classical.em (Safe (pieces (target.path option))) with hsafe | hsafe
    · refine ⟨hsafe, ?_⟩
      rw [setNested_tidy rfl rfl hsafe hpieces] at hoverrides
      rw [← hmerged, ← merge_one (isObject_coerce value) hsafe hpieces]
      unfold merged
      rw [← Except.ok.inj hoverrides]
    · rcases @setNested_refused (String.ofList (joined (target.path option))) _
        (Value.object []) (coerce value) hsafe with ⟨thrown, hthrown⟩
      rw [hthrown] at hoverrides
      cases hoverrides
  · intro h
    rcases h with ⟨hsafe, heq⟩
    refine ⟨_, bind_ok.mpr ⟨_, setNested_tidy rfl rfl hsafe hpieces, rfl⟩, rfl, rfl, ?_⟩
    unfold merged
    rw [merge_one (isObject_coerce value) hsafe hpieces]
    exact heq

/-- A dotted name is split in front of the option. -/
theorem pieces_of_dotted {name : PlaceName} {option : List String}
    (hwritable : Writable option) (hdot : '.' ∈ name.toList) :
    exists first rest, first ≠ name ∧
      pieces ("places" :: name :: option) = "places" :: first :: rest := by
  rcases List.eq_append_cons_of_mem hdot with ⟨before, after, hname, hbefore⟩
  have hsplit : parts name.toList = String.ofList before :: parts after := by
    unfold parts
    rw [hname, List.splitOn_append_cons_self, List.splitOn_eq_singleton hbefore]
    rfl
  refine ⟨String.ofList before, parts after ++ pieces option, ?_, ?_⟩
  · intro heq
    have hlen : (String.ofList before).toList.length = name.toList.length := by rw [heq]
    rw [hname, String.toList_ofList, List.length_append, List.length_cons] at hlen
    omega
  · unfold pieces
    rw [List.flatMap_cons, List.flatMap_cons, hsplit, parts_of_dotless (by decide)]
    rfl

theorem reaches_iff {appConfig : Value} {target : Target} {option : List String}
    {value : String} (hobject : isObject appConfig = true) (hvalid : target.Valid)
    (hwritable : Writable option) :
    Reaches appConfig (target.path option) value <->
      ReachesWhen appConfig (target.path option) value := by
  have hclone := isObject_deepClone hobject
  have hwhole : pieces (target.path option) = target.path option ->
      (Reaches appConfig (target.path option) value <->
        ReachesWhen appConfig (target.path option) value) := by
    intro hsame
    rw [reaches_iff_overlay hvalid hwritable]
    unfold ReachesWhen
    rw [hsame]
    constructor
    · intro h
      refine ⟨h.1, ?_, Or.inl rfl⟩
      cases target with
      | defaults => exact (overlay_from_iff hclone h.1).mp h.2
      | place name => exact (overlay_from_iff hclone h.1).mp h.2
    · intro h
      refine ⟨h.1, ?_⟩
      cases target with
      | defaults => exact (overlay_from_iff hclone h.1).mpr h.2.1
      | place name => exact (overlay_from_iff hclone h.1).mpr h.2.1
  have hoptions : pieces option = option :=
    pieces_of_dotless (fun part hpart => (hwritable.2 part hpart).1)
  cases target with
  | defaults =>
      apply hwhole
      apply pieces_of_dotless
      intro part hpart
      cases List.mem_cons.mp hpart with
      | inl heq =>
          rw [heq]
          decide
      | inr hmem => exact (hwritable.2 part hmem).1
  | place name =>
      rcases Classical.em ('.' ∈ name.toList) with hdot | hdot
      · rcases pieces_of_dotted hwritable hdot with ⟨first, rest, hne, hpieces⟩
        have hproto : name ≠ Value.protoKey := by
          intro heq
          rw [heq] at hdot
          revert hdot
          decide
        rw [reaches_iff_overlay hvalid hwritable]
        unfold ReachesWhen
        have hdiffer : pieces ("places" :: name :: option) ≠ "places" :: name :: option := by
          rw [hpieces]
          intro heq
          exact hne (List.cons.inj (List.cons.inj heq).2).1
        show Safe (pieces ("places" :: name :: option)) ∧ _ <-> _
        constructor
        · intro h
          have hsafe := h.1
          have heq := h.2
          change overlay (deepClone appConfig) (pieces ("places" :: name :: option)) _ = _ at heq
          rw [hpieces] at hsafe heq
          have hboth := (split_eq_iff hclone hsafe hproto hne).mp heq
          have hclear := clearFrom_of_overlay_self hclone hsafe hboth.1
          refine ⟨h.1, ?_, Or.inr ⟨?_, hboth.2⟩⟩
          · show ClearFrom _ (pieces ("places" :: name :: option)) _
            rw [hpieces]
            exact hclear
          · show withOption _ (pieces ("places" :: name :: option)) _ = _
            rw [hpieces]
            exact ((overlay_from_iff hclone hsafe).mpr hclear).symm.trans hboth.1
        · intro h
          refine ⟨h.1, ?_⟩
          rcases h.2.2 with hsame | hstands
          · exact absurd hsame hdiffer
          · have hsafe : Safe (pieces ("places" :: name :: option)) := h.1
            have hclear : ClearFrom (deepClone appConfig)
                (pieces ("places" :: name :: option)) (coerce value) := h.2.1
            have hfirst : withOption (baseOf appConfig)
                (pieces ("places" :: name :: option)) (coerce value) = baseOf appConfig :=
              hstands.1
            show overlay _ (pieces ("places" :: name :: option)) _ = _
            rw [hpieces] at hsafe hclear hfirst ⊢
            rw [(overlay_from_iff hclone hsafe).mpr hclear]
            exact hfirst.trans hstands.2.symm
      · apply hwhole
        apply pieces_of_dotless
        intro part hpart
        cases List.mem_cons.mp hpart with
        | inl heq =>
            rw [heq]
            decide
        | inr hmem =>
            cases List.mem_cons.mp hmem with
            | inl heq =>
                rw [heq]
                exact hdot
            | inr hmem => exact (hwritable.2 part hmem).1

end Config
end SharedMemoryFs
