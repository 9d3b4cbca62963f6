import SharedMemoryFs.Config.Argv

/-!
# Selecting places

The names on the lists are looked up by a property read, which also finds what stands
on a prototype.  When every name that is reached is an own place, selecting changes
the flags of the listed places and nothing else.
-/

namespace SharedMemoryFs
namespace Config

open Foundation

/-!
# What selecting is for
-/

/-- An own key whose value is an object. -/
def Declared (places : Value) (name : PlaceName) : Prop :=
  exists place, places.own.lookup name = some place ∧ isObject place = true

/-- What the lists say about a place, nothing when they leave its flag alone. -/
def selectedFlag (enable disable : List PlaceName) (name : PlaceName) : Option Bool :=
  if name ∈ disable then some false
  else if enable = [] then none
  else some (decide (name ∈ enable))

def selectRaw (enable disable : List PlaceName) (name : PlaceName) (place : Value) : Value :=
  match selectedFlag enable disable name with
  | none => place
  | some flag => setEnabled flag place

def selectPlace (enable disable : List PlaceName) (place : Place) : Place :=
  { place with enabled := (selectedFlag enable disable place.name).getD place.enabled }

/-- A raw config with the flags of its places as the lists say. -/
def selected (raw : Value) (enable disable : List PlaceName) : Value :=
  if enable = [] ∧ disable = [] then raw
  else raw.put "places" (mapOwn (selectRaw enable disable) (selectable raw))

/-- An unknown name throws, known ones change the flags the lists are about, and no
object outside the new config changes in either case. -/
structure Selects (sizeToBytes : String -> Number) (raw : Value)
    (enable disable : List PlaceName) (outcome : Outcome) : Prop where
  unknown : forall name, name ∈ enable ++ disable -> ¬ Declared (selectable raw) name ->
    forall config, outcome.result ≠ Except.ok config
  known : (forall name, name ∈ enable ++ disable -> Declared (selectable raw) name) ->
    outcome.result = VfsConfig.new sizeToBytes (selected raw enable disable)
  flags : forall config, VfsConfig.new sizeToBytes raw = Except.ok config ->
    (forall name, name ∈ enable ++ disable -> Declared (selectable raw) name) ->
      exists config', outcome.result = Except.ok config' ∧ config'.global = config.global ∧
        config'.places = config.places.map (selectPlace enable disable)
  frame : outcome.stray = []

/-!
# Changing own properties
-/

theorem zipIdx_map_zipIdx {alpha : Type} (f : alpha × Nat -> alpha) (items : List alpha) :
    (items.zipIdx.map f).zipIdx = items.zipIdx.map (fun item => (f item, item.2)) := by
  apply List.ext_getElem
  · simp
  · intro i h h'
    simp

theorem own_mapOwn (f : String -> Value -> Value) (v : Value) :
    (mapOwn f v).own = v.own.map (fun entry => (entry.1, f entry.1 entry.2)) := by
  cases v with
  | array items =>
      unfold mapOwn Value.own
      dsimp only
      rw [zipIdx_map_zipIdx, List.map_map, List.map_map]
      rfl
  | _ => rfl

theorem mapOwn_mapOwn (f g : String -> Value -> Value) (v : Value) :
    mapOwn f (mapOwn g v) = mapOwn (fun key place => f key (g key place)) v := by
  cases v with
  | array items =>
      unfold mapOwn
      dsimp only
      rw [zipIdx_map_zipIdx, List.map_map]
      rfl
  | object entries =>
      unfold mapOwn
      dsimp only
      rw [List.map_map]
      rfl
  | derived proto entries =>
      unfold mapOwn
      dsimp only
      rw [List.map_map]
      rfl
  | _ => rfl

theorem lookup_map_values (f : String -> Value -> Value) (entries : Entries) (name : String) :
    (entries.map (fun entry => (entry.1, f entry.1 entry.2))).lookup name =
      (entries.lookup name).map (f name) := by
  induction entries with
  | nil => rfl
  | cons entry rest ih =>
      rw [List.map_cons, OrderedMap.lookup_cons_eq_ite, OrderedMap.lookup_cons_eq_ite]
      split
      next heq => rw [heq, Option.map_some]
      next => exact ih

theorem mapOwn_congr {f g : String -> Value -> Value}
    (h : forall key place, f key place = g key place) : mapOwn f = mapOwn g := by
  have heq : f = g := by
    funext key place
    exact h key place
  rw [heq]

theorem isObject_setEnabled (flag : Bool) (place : Value) :
    isObject (setEnabled flag place) = isObject place := by
  unfold setEnabled
  cases place with
  | object entries =>
      rw [Value.put_object (by decide)]
      rfl
  | derived proto entries =>
      rw [Value.put_derived (by decide)]
      rfl
  | _ => rfl

theorem setEnabled_setEnabled (flag flag' : Bool) (place : Value) :
    setEnabled flag (setEnabled flag' place) = setEnabled flag place :=
  Value.put_put (by decide) place _ _

theorem setEnabled_of_not_object {place : Value} (h : isObject place = false) (flag : Bool) :
    setEnabled flag place = place := by
  cases place with
  | object _ => cases h
  | derived _ _ => cases h
  | _ => rfl

/-- A change of own properties under which objects stay objects. -/
def Tame (f : String -> Value -> Value) : Prop :=
  forall key place, isObject (f key place) = isObject place

theorem found_mapOwn {f : String -> Value -> Value} (hf : Tame f) (v : Value) (name : String) :
    isObject ((mapOwn f v).get name) = isObject (v.get name) := by
  have hlookup : forall entries : Entries, forall default : Value,
      isObject (((entries.map (fun entry => (entry.1, f entry.1 entry.2))).lookup name).getD
        default) = isObject ((entries.lookup name).getD default) := by
    intro entries default
    rw [lookup_map_values]
    cases entries.lookup name with
    | none => rfl
    | some place => exact hf name place
  cases v with
  | array items =>
      show isObject (((mapOwn f (Value.array items)).own.lookup name).getD _) =
        isObject (((Value.array items).own.lookup name).getD _)
      rw [own_mapOwn]
      exact hlookup _ _
  | object entries => exact hlookup _ _
  | derived proto entries => exact hlookup _ _
  | _ => rfl

theorem declared_mapOwn {f : String -> Value -> Value} (hf : Tame f) (v : Value)
    (name : String) : Declared (mapOwn f v) name <-> Declared v name := by
  unfold Declared
  rw [own_mapOwn, lookup_map_values]
  constructor
  · intro h
    rcases h with ⟨place, hplace, hobject⟩
    rcases Option.map_eq_some_iff.mp hplace with ⟨old, hold, heq⟩
    rw [← heq, hf] at hobject
    exact ⟨old, hold, hobject⟩
  · intro h
    rcases h with ⟨place, hplace, hobject⟩
    rw [hplace]
    exact ⟨_, rfl, (hf name place).trans hobject⟩

theorem builtinOf_mapOwn (f : String -> Value -> Value) (v : Value) :
    builtinOf (mapOwn f v) = builtinOf v := by
  cases v <;> rfl

/-- Set the flag of the listed places. -/
def flagged (flag : Bool) (names : List PlaceName) (name : PlaceName) (place : Value) : Value :=
  if name ∈ names then setEnabled flag place else place

theorem tame_flagged (flag : Bool) (names : List PlaceName) : Tame (flagged flag names) := by
  intro name place
  unfold flagged
  split
  · exact isObject_setEnabled flag place
  · rfl

theorem tame_disabled :
    Tame (fun _ place => if isObject place then setEnabled false place else place) := by
  intro name place
  dsimp only
  split
  · exact isObject_setEnabled false place
  · rfl

theorem mapOwn_self {f : String -> Value -> Value} (h : forall key place, f key place = place)
    (v : Value) : mapOwn f v = v := by
  have hentries : forall entries : Entries,
      entries.map (fun entry => (entry.1, f entry.1 entry.2)) = entries := by
    intro entries
    conv_rhs => rw [← List.map_id entries]
    exact List.map_congr_left (fun entry _ => congrArg (Prod.mk entry.1) (h _ _))
  cases v with
  | array items =>
      unfold mapOwn
      dsimp only
      congr 1
      apply List.ext_getElem
      · simp
      · intro i hi hi'
        simp [h]
  | object entries => exact congrArg Value.object (hentries entries)
  | derived proto entries => exact congrArg (Value.derived proto) (hentries entries)
  | _ => rfl

/-!
# The loops
-/

/-- The listed names in front of the first one that is found nowhere. -/
def reached (places : Value) (names : List PlaceName) : List PlaceName :=
  names.takeWhile (fun name => isObject (places.get name))

theorem found_of_declared {places : Value} {name : PlaceName} (h : Declared places name) :
    isObject (places.get name) = true := by
  rcases h with ⟨place, hplace, hobject⟩
  cases places with
  | array items =>
      show isObject (((Value.array items).own.lookup name).getD _) = true
      rw [hplace]
      exact hobject
  | object entries =>
      show isObject ((entries.lookup name).getD _) = true
      rw [show entries.lookup name = some place from hplace]
      exact hobject
  | derived proto entries =>
      show isObject ((entries.lookup name).getD _) = true
      rw [show entries.lookup name = some place from hplace]
      exact hobject
  | _ => cases hplace

theorem assignEnabled_declared {places : Value} {name : PlaceName} (h : Declared places name)
    (flag : Bool) :
    assignEnabled flag name places = mapOwn (flagged flag [name]) places := by
  have hmap : mapOwn (fun key place => if key = name then setEnabled flag place else place) =
      mapOwn (flagged flag [name]) := by
    apply mapOwn_congr
    intro key place
    unfold flagged
    simp only [List.mem_singleton]
  cases places with
  | derived proto entries =>
      rcases h with ⟨place, hplace, _⟩
      unfold assignEnabled
      rw [show entries.lookup name = some place from hplace, Option.isSome_some, if_pos rfl, hmap]
  | _ => exact congrFun hmap _

theorem strayOf_declared {places : Value} {name : PlaceName} (h : Declared places name)
    (flag : Bool) : strayOf flag name places = [] := by
  rcases h with ⟨place, hplace, _⟩
  unfold strayOf
  rw [hplace]
  exact if_neg (fun hproto => by cases hproto.2)

theorem flagged_flagged (flag : Bool) (name : PlaceName) (names : List PlaceName)
    (key : String) (place : Value) :
    flagged flag names key (flagged flag [name] key place) =
      flagged flag (name :: names) key place := by
  unfold flagged
  simp only [List.mem_cons, List.not_mem_nil, or_false]
  cases hin : decide (key ∈ names) with
  | true =>
      have hmem := of_decide_eq_true hin
      rw [if_pos hmem, if_pos (Or.inr hmem)]
      split
      · exact setEnabled_setEnabled flag flag place
      · rfl
  | false =>
      have hmem := of_decide_eq_false hin
      rw [if_neg hmem]
      simp only [hmem, or_false]

/-- As long as the names that are reached are own places, a loop sets their flags. -/
theorem selectEach_declared {flag : Bool} {names : List PlaceName} {places : Value}
    {stray : Stray} (h : forall name, name ∈ reached places names -> Declared places name) :
    (selectEach flag names ⟨places, stray⟩).1 =
        ⟨mapOwn (flagged flag (reached places names)) places, stray⟩ ∧
      ((selectEach flag names ⟨places, stray⟩).2 = none <-> reached places names = names) := by
  induction names generalizing places with
  | nil =>
      refine ⟨?_, fun _ => rfl, fun _ => rfl⟩
      show (⟨places, stray⟩ : Selection) = ⟨mapOwn (flagged flag []) places, stray⟩
      rw [mapOwn_self]
      intro key place
      exact if_neg List.not_mem_nil
  | cons name rest ih =>
      unfold selectEach
      cases hfound : isObject (places.get name) with
      | false =>
          have hreached : reached places (name :: rest) = [] := by
            unfold reached
            rw [List.takeWhile_cons_of_neg]
            rw [hfound]
            exact Bool.false_ne_true
          rw [hreached]
          refine ⟨?_, ?_, ?_⟩
          · show (⟨places, stray⟩ : Selection) = ⟨mapOwn (flagged flag []) places, stray⟩
            rw [mapOwn_self]
            intro key place
            exact if_neg List.not_mem_nil
          · intro hnone
            cases hnone
          · intro hnil
            cases hnil
      | true =>
          have hreached : reached places (name :: rest) = name :: reached places rest := by
            exact List.takeWhile_cons_of_pos (p := fun name => isObject (places.get name)) hfound
          rw [hreached] at h ⊢
          have hname := h name List.mem_cons_self
          have htame := tame_flagged flag [name]
          have hsame : reached (mapOwn (flagged flag [name]) places) rest =
              reached places rest := by
            unfold reached
            simp only [found_mapOwn htame]
          rw [if_pos rfl, assignEnabled_declared hname, strayOf_declared hname, List.append_nil]
          have hrest := @ih (mapOwn (flagged flag [name]) places) (by
            intro other hother
            rw [hsame] at hother
            exact (declared_mapOwn htame places other).mpr
              (h other (List.mem_cons_of_mem _ hother)))
          rw [hsame] at hrest
          refine ⟨?_, ?_⟩
          · rw [hrest.1, mapOwn_mapOwn]
            congr 2
            funext key place
            exact flagged_flagged flag name _ key place
          · rw [hrest.2, List.cons.injEq]
            simp only [true_and]

theorem reached_append (places : Value) (first second : List PlaceName) :
    reached places (first ++ second) =
      if reached places first = first then first ++ reached places second
      else reached places first := by
  unfold reached
  rw [List.takeWhile_append]
  cases hall : decide (first.takeWhile (fun name => isObject (places.get name)) = first) with
  | true =>
      have heq := of_decide_eq_true hall
      rw [if_pos heq, if_pos (congrArg List.length heq)]
  | false =>
      have hne := of_decide_eq_false hall
      rw [if_neg hne, if_neg]
      intro hlen
      exact hne ((List.takeWhile_prefix _).eq_of_length hlen)

theorem reached_eq_iff {places : Value} {names : List PlaceName} :
    reached places names = names <-> forall name, name ∈ names -> isObject (places.get name) := by
  unfold reached
  exact List.takeWhile_eq_self_iff

theorem reached_mapOwn {f : String -> Value -> Value} (hf : Tame f) (places : Value)
    (names : List PlaceName) : reached (mapOwn f places) names = reached places names := by
  unfold reached
  simp only [found_mapOwn hf]

/-- Both loops together. -/
theorem select_declared {enable disable : List PlaceName} {places : Value}
    (h : forall name, name ∈ reached places (enable ++ disable) -> Declared places name) :
    (select enable disable places).1.stray = [] ∧
      ((select enable disable places).2 = none <->
        reached places (enable ++ disable) = enable ++ disable) ∧
      ((select enable disable places).2 = none ->
        (select enable disable places).1.places = mapOwn (selectRaw enable disable) places) := by
  unfold select
  cases hempty : decide (enable = []) with
  | true =>
      have hnil := of_decide_eq_true hempty
      rw [hnil, List.nil_append] at h
      rw [hnil, if_pos rfl, List.nil_append]
      dsimp only
      have hloop := @selectEach_declared false disable places [] h
      rw [hloop.1]
      refine ⟨rfl, hloop.2, ?_⟩
      intro hnone
      dsimp only
      rw [hloop.2.mp hnone]
      apply congrFun
      apply mapOwn_congr
      intro key place
      unfold flagged selectRaw selectedFlag
      split
      · rfl
      · rw [if_pos rfl]
  | false =>
      have hne := of_decide_eq_false hempty
      rw [if_neg hne]
      have hreached := reached_append places enable disable
      have hboth : forall name, name ∈ reached places enable -> Declared places name := by
        intro name hname
        apply h
        rw [hreached]
        split
        next heq => exact List.mem_append_left _ (heq ▸ hname)
        next => exact hname
      have hstart : forall name, name ∈ reached (disableAll places) enable ->
          Declared (disableAll places) name := by
        intro name hname
        unfold disableAll at hname ⊢
        rw [reached_mapOwn tame_disabled] at hname
        exact (declared_mapOwn tame_disabled places name).mpr (hboth name hname)
      have hfirst := @selectEach_declared true enable (disableAll places) [] hstart
      have hsame : reached (disableAll places) enable = reached places enable :=
        reached_mapOwn tame_disabled places enable
      rw [hsame] at hfirst
      cases hresult : selectEach true enable ⟨disableAll places, []⟩ with
      | mk selection thrown =>
          rw [hresult] at hfirst
          dsimp only at hfirst
          cases thrown with
          | some thrown =>
              dsimp only
              rw [hfirst.1]
              have hstop : reached places enable ≠ enable := by
                intro heq
                cases hfirst.2.mpr heq
              refine ⟨rfl, ?_, fun hnone => by cases hnone⟩
              constructor
              · intro hnone
                cases hnone
              · intro heq
                rw [hreached, if_neg hstop] at heq
                have hlen := congrArg List.length heq
                have hle := (List.takeWhile_prefix
                  (fun name => isObject (places.get name)) (l := enable)).length_le
                have hless : (reached places enable).length < enable.length := by
                  apply lt_of_le_of_ne hle
                  intro hlen'
                  exact hstop ((List.takeWhile_prefix _).eq_of_length hlen')
                rw [List.length_append] at hlen
                omega
          | none =>
              dsimp only
              have hall := hfirst.2.mp rfl
              rw [hall] at hfirst
              rw [hreached, if_pos hall] at h
              rw [hreached, if_pos hall, hfirst.1]
              have htame : Tame (fun key place => flagged true enable key
                  (if isObject place then setEnabled false place else place)) := by
                intro key place
                rw [tame_flagged true enable key]
                exact tame_disabled key place
              have hplaces : mapOwn (flagged true enable) (disableAll places) =
                  mapOwn (fun key place => flagged true enable key
                    (if isObject place then setEnabled false place else place)) places :=
                mapOwn_mapOwn _ _ _
              rw [hplaces]
              have hsecond := @selectEach_declared false disable (mapOwn (fun key place =>
                flagged true enable key
                  (if isObject place then setEnabled false place else place)) places) [] (by
                intro name hname
                rw [reached_mapOwn htame] at hname
                exact (declared_mapOwn htame places name).mpr
                  (h name (List.mem_append_right _ hname)))
              rw [reached_mapOwn htame] at hsecond
              rw [hsecond.1]
              refine ⟨rfl, ?_, ?_⟩
              · rw [hsecond.2, List.append_right_inj]
              · intro hnone
                dsimp only
                rw [hsecond.2.mp hnone, mapOwn_mapOwn]
                apply congrFun
                apply mapOwn_congr
                intro key place
                have hdisabled : (if isObject place then setEnabled false place else place) =
                    setEnabled false place := by
                  split
                  · rfl
                  next hobject =>
                    rw [setEnabled_of_not_object (Bool.eq_false_iff.mpr hobject)]
                rw [hdisabled]
                unfold flagged selectRaw selectedFlag
                rw [if_neg hne]
                split
                · split
                  · rw [setEnabled_setEnabled, setEnabled_setEnabled]
                  · exact setEnabled_setEnabled false false place
                · split
                  next hmem =>
                    rw [setEnabled_setEnabled, decide_eq_true hmem]
                  next hmem => rw [decide_eq_false hmem]

/-!
# Resolving with other flags
-/

variable {sizeToBytes : String -> Number}

theorem get_put {target : Value} (h : isObject target = true) {name : String}
    (hname : name ≠ Value.protoKey) (value : Value) (other : String) :
    (target.put name value).get other = if other = name then value else target.get other := by
  cases target with
  | object entries => exact Value.get_put_object hname value entries other
  | derived proto entries => exact Value.get_put_derived hname value proto entries other
  | _ => cases h

theorem own_put {target : Value} (h : isObject target = true) {name : String}
    (hname : name ≠ Value.protoKey) (value : Value) :
    (target.put name value).own = OrderedMap.setEntries name value target.own := by
  cases target with
  | object entries => rw [Value.put_object hname]; rfl
  | derived proto entries => rw [Value.put_derived hname]; rfl
  | _ => cases h

theorem known_put {field : String} {target : Value} (h : isObject target = true) {name : String}
    (hname : name ≠ Value.protoKey) (value : Value) {allowed : List String}
    (hallowed : name ∈ allowed) (hknown : knownKeys field target allowed = Except.ok ()) :
    knownKeys field (target.put name value) allowed = Except.ok () := by
  unfold knownKeys at hknown ⊢
  split at hknown
  next hnone =>
    have hnone' : (target.put name value).keys.find? (fun key => !allowed.contains key) =
        none := by
      rw [List.find?_eq_none] at hnone ⊢
      intro key hkey
      unfold Value.keys at hkey
      rw [own_put h hname, OrderedMap.mem_keys_setEntries] at hkey
      cases hkey with
      | inl heq =>
          rw [heq, List.contains_iff_mem.mpr hallowed]
          exact Bool.false_ne_true
      | inr hmem => exact hnone key hmem
    rw [hnone']
  next => exact absurd hknown fail_ne_ok

/-- A place with another flag resolves to the same place with that flag. -/
theorem resolvePlace_setEnabled {name : PlaceName} {raw : Value} {global : Global}
    {place : Place} (h : resolvePlace sizeToBytes name raw global = Except.ok place)
    (flag : Bool) :
    resolvePlace sizeToBytes name (setEnabled flag raw) global =
      Except.ok { place with enabled := flag } := by
  rcases resolvePlace_ok h with ⟨built, hbuilt, hnormalized⟩
  have hobject := hbuilt.isObject
  have hget : forall other, other ≠ "enabled" ->
      (setEnabled flag raw).get other = raw.get other := by
    intro other hother
    unfold setEnabled
    rw [get_put hobject (by decide), if_neg hother]
  have hgiven : given (setEnabled flag raw) "maxFileSize" = given raw "maxFileSize" := by
    unfold given
    rw [hget "maxFileSize" (by decide)]
  have hresolves : Resolves sizeToBytes name (setEnabled flag raw) global
      { built with enabled := flag } := by
    constructor
    · exact hbuilt.named
    · exact hbuilt.validName
    · exact (isObject_setEnabled flag raw).trans hobject
    · exact known_put hobject (by decide) _ (by decide) hbuilt.known
    · rw [hget "provider" (by decide)]
      exact hbuilt.provider
    · unfold setEnabled
      rw [get_put hobject (by decide), if_pos rfl]
      rfl
    · rw [hget "origin" (by decide)]
      exact hbuilt.origin
    · rw [← hbuilt.maxFileSize]
      unfold maxFileSizeOf
      rw [hgiven]
    · rw [hget "fs" (by decide)]
      exact hbuilt.fs
    · rw [hget "require" (by decide)]
      exact hbuilt.require
    · rw [hget "import" (by decide)]
      exact hbuilt.imports
    · rw [hgiven]
      exact hbuilt.pooled
    · exact hbuilt.scanExt
    · rw [← hbuilt.prepare]
      unfold resolvePrepare declarationList
      rw [hget "fs" (by decide), hget "require" (by decide), hget "import" (by decide)]
    · exact hbuilt.valid
  rcases normalizeFallback_ok hnormalized with ⟨fallback, heq⟩
  have hprepare : place.prepare = built.prepare := by rw [heq]
  have hframe := normalizeFallback_frame flag built.prepare hnormalized
  rw [← hprepare] at hframe
  apply resolvePlace_of_resolves hresolves
  rw [← hframe, hprepare]

theorem resolvePlace_selectRaw {name : PlaceName} {raw : Value} {global : Global}
    {place : Place} (h : resolvePlace sizeToBytes name raw global = Except.ok place)
    (enable disable : List PlaceName) :
    resolvePlace sizeToBytes name (selectRaw enable disable name raw) global =
      Except.ok (selectPlace enable disable place) := by
  have hname := name_of_resolvePlace h
  subst hname
  unfold selectRaw selectPlace
  cases hflag : selectedFlag enable disable place.name with
  | none => exact h
  | some flag => exact resolvePlace_setEnabled h flag

theorem resolvePlaces_selectRaw {global : Global} {entries : Entries} {places : List Place}
    (h : resolvePlaces sizeToBytes global entries = Except.ok places)
    (enable disable : List PlaceName) :
    resolvePlaces sizeToBytes global
        (entries.map (fun entry => (entry.1, selectRaw enable disable entry.1 entry.2))) =
      Except.ok (places.map (selectPlace enable disable)) := by
  induction entries generalizing places with
  | nil =>
      cases h
      rfl
  | cons entry rest ih =>
      rcases bind_ok.mp h with ⟨place, hplace, hrest⟩
      rcases bind_ok.mp hrest with ⟨others, hothers, heq⟩
      cases heq
      exact bind_ok.mpr ⟨_, resolvePlace_selectRaw hplace enable disable,
        bind_ok.mpr ⟨_, ih hothers, rfl⟩⟩

theorem validateNames_map {f : Place -> Place} (hf : forall place, (f place).name = place.name)
    {places : List Place} {seen : List (String × PlaceName)} :
    validateNames seen (places.map f) = validateNames seen places := by
  induction places generalizing seen with
  | nil => rfl
  | cons place rest ih =>
      rw [List.map_cons]
      unfold validateNames
      rw [hf]
      split
      · rfl
      · exact ih

theorem isObject_mapOwn (f : String -> Value -> Value) (v : Value) :
    isObject (mapOwn f v) = isObject v := by
  cases v <;> rfl

theorem orEmpty_of_isObject {v : Value} (h : isObject v = true) : orEmpty v = v := by
  cases v with
  | object _ => rfl
  | derived _ _ => rfl
  | _ => cases h

/-- Selecting in an accepted config changes the flags of its places. -/
theorem new_selected {raw : Value} {config : VfsConfig}
    (h : VfsConfig.new sizeToBytes raw = Except.ok config) (enable disable : List PlaceName) :
    exists config', VfsConfig.new sizeToBytes (selected raw enable disable) =
        Except.ok config' ∧ config'.global = config.global ∧
      config'.places = config.places.map (selectPlace enable disable) := by
  rcases new_ok h with ⟨hobject, hknown, hglobal, hplaces, hresolved, hnames, _⟩
  unfold selected
  split
  next hnone =>
    refine ⟨config, h, rfl, ?_⟩
    rw [hnone.1, hnone.2]
    conv_lhs => rw [← List.map_id config.places]
    apply List.map_congr_left
    intro place _
    unfold selectPlace selectedFlag
    rw [if_neg List.not_mem_nil, if_pos rfl]
    rfl
  next =>
    have hempty : isObject (selectable raw) = true := by
      unfold selectable
      rw [Bool.or_eq_true] at hplaces
      cases hplaces with
      | inl hundefined =>
          cases hvalue : raw.get "places" with
          | undefined => rfl
          | _ =>
              rw [hvalue] at hundefined
              cases hundefined
      | inr hplaces => rw [orEmpty_of_isObject hplaces, hplaces]
    have hget : forall other, (raw.put "places"
        (mapOwn (selectRaw enable disable) (selectable raw))).get other =
          if other = "places" then mapOwn (selectRaw enable disable) (selectable raw)
          else raw.get other := get_put hobject (by decide) _
    have hentries : placeEntries (raw.put "places"
        (mapOwn (selectRaw enable disable) (selectable raw))) =
        (placeEntries raw).map
          (fun entry => (entry.1, selectRaw enable disable entry.1 entry.2)) := by
      have hmapped : isObject (mapOwn (selectRaw enable disable) (selectable raw)) = true := by
        rw [isObject_mapOwn]
        exact hempty
      unfold placeEntries
      rw [hget, if_pos rfl, orEmpty_of_isObject hmapped, own_mapOwn]
      rfl
    refine ⟨_, new_of ?_ ?_ ?_ ?_ ?_ ?_, rfl, rfl⟩
    · cases raw with
      | object entries =>
          rw [Value.put_object (by decide)]
          rfl
      | derived proto entries =>
          rw [Value.put_derived (by decide)]
          rfl
      | _ => cases hobject
    · exact known_put hobject (by decide) _ (by decide) hknown
    · rw [hget, if_neg (by decide)]
      exact hglobal
    · rw [hget, if_pos rfl, isObject_mapOwn, hempty, Bool.or_true]
    · rw [hentries]
      exact resolvePlaces_selectRaw hresolved enable disable
    · have hkept : forall place, (selectPlace enable disable place).name = place.name :=
        fun place => rfl
      rw [validateNames_map hkept]
      exact hnames

/-!
# Own names
-/

theorem configure_selects {appConfig : Value} {parsed : Parsed}
    (h : forall name, name ∈ reached (selectable (merged appConfig parsed))
      (parsed.enable ++ parsed.disable) -> Declared (selectable (merged appConfig parsed)) name) :
    Selects sizeToBytes (merged appConfig parsed) parsed.enable parsed.disable
      (configure sizeToBytes appConfig parsed) := by
  have hshape : (configure sizeToBytes appConfig parsed).stray = [] ∧
      ((forall name, name ∈ parsed.enable ++ parsed.disable ->
          Declared (selectable (merged appConfig parsed)) name) ->
        (configure sizeToBytes appConfig parsed).result =
          VfsConfig.new sizeToBytes
            (selected (merged appConfig parsed) parsed.enable parsed.disable)) ∧
      forall name, name ∈ parsed.enable ++ parsed.disable ->
        ¬ Declared (selectable (merged appConfig parsed)) name ->
          forall config, (configure sizeToBytes appConfig parsed).result ≠ Except.ok config := by
    unfold configure selected
    dsimp only
    split
    next hnone =>
      refine ⟨rfl, fun _ => rfl, ?_⟩
      rw [hnone.1, hnone.2]
      intro name hname
      cases hname
    next =>
      rcases select_declared h with ⟨hstray, hends, hplaces⟩
      cases hresult : select parsed.enable parsed.disable
          (selectable (merged appConfig parsed)) with
      | mk selection thrown =>
          rw [hresult] at hstray hends hplaces
          cases thrown with
          | some thrown =>
              refine ⟨hstray, ?_, ?_⟩
              · intro hall
                have hreached := reached_eq_iff.mpr (fun name hname =>
                  found_of_declared (hall name hname))
                cases hends.mpr hreached
              · intro name _ _ config hok
                cases hok
          | none =>
              have hreached := hends.mp rfl
              rw [hreached] at h
              refine ⟨hstray, ?_, ?_⟩
              · intro _
                dsimp only at hstray hplaces ⊢
                rw [hstray, hplaces rfl]
                rfl
              · intro name hname hnot
                exact absurd (h name hname) hnot
  refine ⟨hshape.2.2, hshape.2.1, ?_, hshape.1⟩
  intro config hconfig hall
  rw [hshape.2.1 hall]
  exact new_selected hconfig parsed.enable parsed.disable

def isDerived : Value -> Bool
  | Value.derived _ _ => true
  | _ => false

theorem isDerived_mapOwn (f : String -> Value -> Value) (v : Value) :
    isDerived (mapOwn f v) = isDerived v := by
  cases v <;> rfl

theorem inherited_isObject {name : String} (h : isObject (Value.inherited name) = true) :
    name = Value.protoKey := by
  unfold Value.inherited at h
  split at h
  next heq => exact heq
  next =>
    split at h
    · cases h
    · split at h
      · cases h
      · cases h

/-- What is found without being an own place is a built-in prototype. -/
theorem strays_of_not_declared {places : Value} {name : PlaceName}
    (hfound : isObject (places.get name) = true) (hown : ¬ Declared places name)
    (hplain : isDerived places = false) (flag : Bool) : strayOf flag name places ≠ [] := by
  have hstray : forall builtin, name = Value.protoKey -> places.own.lookup name = none ->
      builtinOf places = some builtin -> strayOf flag name places ≠ [] := by
    intro builtin hname hlookup hbuiltin
    unfold strayOf
    rw [if_pos ⟨hname, hlookup⟩, hbuiltin]
    exact List.cons_ne_nil _ _
  cases places with
  | undefined => cases hfound
  | null => cases hfound
  | function returns => cases hfound
  | boolean value => exact hstray _ (inherited_isObject hfound) rfl rfl
  | number value => exact hstray _ (inherited_isObject hfound) rfl rfl
  | string text => exact hstray _ (inherited_isObject hfound) rfl rfl
  | derived proto entries => cases hplain
  | object entries =>
      change isObject ((entries.lookup name).getD _) = true at hfound
      cases hlookup : entries.lookup name with
      | some place =>
          rw [hlookup] at hfound
          exact absurd ⟨place, hlookup, hfound⟩ hown
      | none =>
          rw [hlookup] at hfound
          exact hstray _ (inherited_isObject hfound) hlookup rfl
  | array items =>
      change isObject (((Value.array items).own.lookup name).getD _) = true at hfound
      cases hlookup : (Value.array items).own.lookup name with
      | some place =>
          rw [hlookup] at hfound
          exact absurd ⟨place, hlookup, hfound⟩ hown
      | none =>
          rw [hlookup, Option.getD_none] at hfound
          split at hfound
          next => cases hfound
          next hne => exact absurd (inherited_isObject hfound) hne

/-- What was assigned stays assigned. -/
theorem selectEach_stray (flag : Bool) (names : List PlaceName) (selection : Selection) :
    selection.stray <+: (selectEach flag names selection).1.stray := by
  induction names generalizing selection with
  | nil => exact List.prefix_rfl
  | cons name rest ih =>
      unfold selectEach
      split
      · have hrest := ih ⟨assignEnabled flag name selection.places,
          selection.stray ++ strayOf flag name selection.places⟩
        exact (List.prefix_append _ _).trans hrest
      · exact List.prefix_rfl

theorem selectEach_strays {flag : Bool} {names : List PlaceName} {places : Value}
    {stray : Stray} (hplain : isDerived places = false)
    (h : exists name, name ∈ reached places names ∧ ¬ Declared places name) :
    (selectEach flag names ⟨places, stray⟩).1.stray ≠ [] := by
  induction names generalizing places stray with
  | nil =>
      rcases h with ⟨name, hname, _⟩
      cases hname
  | cons name rest ih =>
      unfold reached at h
      unfold selectEach
      cases hfound : isObject (places.get name) with
      | false =>
          rcases h with ⟨other, hother, _⟩
          rw [List.takeWhile_cons_of_neg (by rw [hfound]; exact Bool.false_ne_true)] at hother
          cases hother
      | true =>
          rw [if_pos rfl]
          rcases Classical.em (Declared places name) with hdeclared | hdeclared
          · have htame := tame_flagged flag [name]
            rw [assignEnabled_declared hdeclared]
            apply ih ((isDerived_mapOwn _ places).trans hplain)
            rcases h with ⟨other, hother, hnot⟩
            rw [List.takeWhile_cons_of_pos (p := fun name => isObject (places.get name)) hfound]
              at hother
            refine ⟨other, ?_, fun hd => hnot ((declared_mapOwn htame places other).mp hd)⟩
            rw [reached_mapOwn htame]
            cases List.mem_cons.mp hother with
            | inl heq => exact absurd (heq ▸ hdeclared) hnot
            | inr hmem => exact hmem
          · intro hnil
            have hbelow := selectEach_stray flag rest
              ⟨assignEnabled flag name places, stray ++ strayOf flag name places⟩
            dsimp only at hbelow hnil
            rw [hnil, List.prefix_nil, List.append_eq_nil_iff] at hbelow
            exact strays_of_not_declared hfound hdeclared hplain flag hbelow.2

theorem select_strays {enable disable : List PlaceName} {places : Value}
    (hplain : isDerived places = false)
    (h : exists name, name ∈ reached places (enable ++ disable) ∧ ¬ Declared places name) :
    (select enable disable places).1.stray ≠ [] := by
  unfold select
  cases hempty : decide (enable = []) with
  | true =>
      rw [of_decide_eq_true hempty] at h ⊢
      exact selectEach_strays hplain h
  | false =>
      rw [if_neg (of_decide_eq_false hempty)]
      have hdisabled : isDerived (disableAll places) = false :=
        (isDerived_mapOwn _ places).trans hplain
      have hsame : forall names, reached (disableAll places) names = reached places names :=
        reached_mapOwn tame_disabled places
      rw [reached_append] at h
      rcases Classical.em (exists name, name ∈ reached places enable ∧ ¬ Declared places name)
        with hfirst | hfirst
      · rcases hfirst with ⟨name, hname, hnot⟩
        have hstray : (selectEach true enable ⟨disableAll places, []⟩).1.stray ≠ [] := by
          apply selectEach_strays hdisabled
          refine ⟨name, (hsame enable).symm ▸ hname, ?_⟩
          exact fun hd => hnot ((declared_mapOwn tame_disabled places name).mp hd)
        cases hresult : selectEach true enable ⟨disableAll places, []⟩ with
        | mk selection thrown =>
            rw [hresult] at hstray
            cases thrown with
            | some thrown => exact hstray
            | none =>
                dsimp only at hstray ⊢
                intro hnil
                have hbelow := selectEach_stray false disable selection
                rw [hnil, List.prefix_nil] at hbelow
                exact hstray hbelow
      · have hall : forall name, name ∈ reached (disableAll places) enable ->
            Declared (disableAll places) name := by
          intro name hname
          rw [hsame] at hname
          apply (declared_mapOwn tame_disabled places name).mpr
          exact Classical.not_not.mp (fun hnot => hfirst ⟨name, hname, hnot⟩)
        have hloop := @selectEach_declared true enable (disableAll places) [] hall
        rw [hsame] at hloop
        split at h
        next heq =>
          cases hresult : selectEach true enable ⟨disableAll places, []⟩ with
          | mk selection thrown =>
              rw [hresult] at hloop
              dsimp only at hloop ⊢
              rw [hloop.2.mpr heq, hloop.1]
              dsimp only
              have htame := tame_flagged true (reached places enable)
              apply selectEach_strays ((isDerived_mapOwn _ _).trans hdisabled)
              rcases h with ⟨name, hname, hnot⟩
              refine ⟨name, ?_, ?_⟩
              · rw [reached_mapOwn htame, hsame]
                cases List.mem_append.mp hname with
                | inl hfirst' =>
                    exact absurd (heq.symm ▸ hfirst')
                      (fun hin => hfirst ⟨name, hin, hnot⟩)
                | inr hsecond => exact hsecond
              · intro hd
                rw [declared_mapOwn htame] at hd
                exact hnot ((declared_mapOwn tame_disabled places name).mp hd)
        next => exact absurd h hfirst

/-- Every listed name that is reached is an own place. -/
def SelectsOwn (appConfig : Value) (parsed : Parsed) : Prop :=
  forall name, name ∈ reached (selectable (merged appConfig parsed))
    (parsed.enable ++ parsed.disable) -> Declared (selectable (merged appConfig parsed)) name

theorem selectsOwn_of_selects {appConfig : Value} {parsed : Parsed}
    (hplain : isDerived (selectable (merged appConfig parsed)) = false)
    (h : Selects sizeToBytes (merged appConfig parsed) parsed.enable parsed.disable
      (configure sizeToBytes appConfig parsed)) : SelectsOwn appConfig parsed := by
  intro name hname
  apply Classical.not_not.mp
  intro hnot
  have hstray := select_strays hplain ⟨name, hname, hnot⟩
  have hframe := h.frame
  unfold configure at hframe
  dsimp only at hframe
  split at hframe
  next hnone =>
    rw [hnone.1, hnone.2] at hname
    cases hname
  next =>
    cases hresult : select parsed.enable parsed.disable
        (selectable (merged appConfig parsed)) with
    | mk selection thrown =>
        rw [hresult] at hframe hstray
        cases thrown with
        | some thrown => exact hstray hframe
        | none => exact hstray hframe

/-- Repetition and order inside the lists do not matter. -/
theorem selected_congr {raw : Value} {enable disable enable' disable' : List PlaceName}
    (henable : forall name, name ∈ enable <-> name ∈ enable')
    (hdisable : forall name, name ∈ disable <-> name ∈ disable') :
    selected raw enable disable = selected raw enable' disable' := by
  have hempty : forall {names names' : List PlaceName},
      (forall name, name ∈ names <-> name ∈ names') -> (names = [] <-> names' = []) := by
    intro names names' h
    rw [List.eq_nil_iff_forall_not_mem, List.eq_nil_iff_forall_not_mem]
    exact forall_congr' (fun name => not_congr (h name))
  have hflag : selectRaw enable disable = selectRaw enable' disable' := by
    funext name place
    unfold selectRaw selectedFlag
    simp only [hdisable name, henable name, hempty henable]
  unfold selected
  simp only [hempty henable, hempty hdisable, hflag]

/-- Selecting touches declared places only as long as every listed name in front of the
first unknown one is an own place; where the places have no prototype of their own, this
is also needed. -/
theorem selects_iff (sizeToBytes : String -> Number) (argv : List String) (appConfig : Value) :
    (forall parsed, parseArgv argv = Except.ok parsed ->
      (SelectsOwn appConfig parsed ->
        Selects sizeToBytes (merged appConfig parsed) parsed.enable parsed.disable
          (fromArgv sizeToBytes argv appConfig)) ∧
      (isDerived (selectable (merged appConfig parsed)) = false ->
        Selects sizeToBytes (merged appConfig parsed) parsed.enable parsed.disable
          (fromArgv sizeToBytes argv appConfig) -> SelectsOwn appConfig parsed)) ∧
    (forall thrown, parseArgv argv = Except.error thrown ->
      fromArgv sizeToBytes argv appConfig = ⟨Except.error thrown, []⟩) ∧
    forall raw enable disable enable' disable',
      (forall name, name ∈ enable <-> name ∈ enable') ->
      (forall name, name ∈ disable <-> name ∈ disable') ->
        selected raw enable disable = selected raw enable' disable' := by
  refine ⟨?_, ?_, fun raw _ _ _ _ => selected_congr⟩
  · intro parsed hparsed
    have hfrom : fromArgv sizeToBytes argv appConfig =
        configure sizeToBytes appConfig parsed := by
      unfold fromArgv
      rw [hparsed]
    rw [hfrom]
    exact ⟨configure_selects, selectsOwn_of_selects⟩
  · intro thrown hthrown
    unfold fromArgv
    rw [hthrown]

/-- One place with its files. -/
def onePlace : Value :=
  Value.object [("places", Value.object [("a", Value.object [("fs", Value.boolean true)])])]

/-- The sizes of the defaults. -/
def defaultSizes (text : String) : Number :=
  if text = "1 gib" then Number.finite 1073741824
  else if text = "64 mib" then Number.finite 67108864
  else if text = "10 mb" then Number.finite 10000000
  else Number.nan

/-- The prototype of all objects passes for a place. -/
theorem disables_the_prototype :
    ¬ forall parsed, parseArgv ["--", "--vfs.disable=__proto__"] = Except.ok parsed ->
      Selects defaultSizes (merged onePlace parsed) parsed.enable parsed.disable
        (fromArgv defaultSizes ["--", "--vfs.disable=__proto__"] onePlace) := by
  intro h
  have hframe := (h ⟨Value.object [], [], ["__proto__"]⟩ (by rfl)).frame
  cases hframe

end Config
end SharedMemoryFs
