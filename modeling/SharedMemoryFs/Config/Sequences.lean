import SharedMemoryFs.Config.Overrides

/-!
# Several overrides

The overrides are collected into one object before any of them is merged.  As long as
none is written inside the option of an earlier one, merging what was collected is the
same as replacing one option after the other.
-/

namespace SharedMemoryFs
namespace Config

open Foundation

/-!
# Reading a replaced option
-/

theorem own_put_container (base : Value) {name : String} (hname : name ≠ Value.protoKey)
    (value : Value) :
    ((container base).put name value).own =
      OrderedMap.setEntries name value (container base).own :=
  own_put (isObject_container base) hname value

theorem isObject_withOption {base value : Value} {part : String} {rest : List String} :
    isObject (withOption base (part :: rest) value) = true := by
  unfold withOption
  exact isObject_put (isObject_container base) _ _

theorem optionAt_cons {base : Value} {part : String} {rest : List String} :
    optionAt base (part :: rest) =
      ((container base).own.lookup part).bind (fun child => optionAt child rest) := by
  conv_lhs => unfold optionAt
  unfold container
  split
  · rfl
  · rfl

theorem optionAt_withOption_cons {base value : Value} {part other : String}
    {rest rest' : List String} (hpart : part ≠ Value.protoKey) :
    optionAt (withOption base (part :: rest) value) (other :: rest') =
      if other = part then
        optionAt (withOption (ownOr (container base) part) rest value) rest'
      else optionAt base (other :: rest') := by
  rw [optionAt_cons, container_of_isObject isObject_withOption]
  show ((((container base).put part _).own).lookup other).bind _ = _
  rw [own_put_container base hpart, OrderedMap.lookup_setEntries]
  split
  next => rfl
  next => rw [optionAt_cons]

/-- The option that was replaced has its new value. -/
theorem optionAt_withOption_self {base value : Value} {path : List String} (hsafe : Safe path) :
    optionAt (withOption base path value) path = some value := by
  induction path generalizing base with
  | nil => rfl
  | cons part rest ih =>
      rw [optionAt_withOption_cons hsafe.ne_proto, if_pos rfl]
      exact ih hsafe.tail

theorem optionAt_undefined {path : List String} (hpath : path ≠ []) :
    optionAt Value.undefined path = none := by
  cases path with
  | nil => exact absurd rfl hpath
  | cons part rest => rfl

/-- An option that is neither above nor below the replaced one keeps its value. -/
theorem optionAt_withOption_other {base value : Value} {path other : List String}
    (hsafe : Safe path) (hbelow : ¬ path <+: other) (habove : ¬ other <+: path) :
    optionAt (withOption base path value) other = optionAt base other := by
  induction path generalizing base other with
  | nil => exact absurd List.nil_prefix hbelow
  | cons part rest ih =>
      cases other with
      | nil => exact absurd List.nil_prefix habove
      | cons first others =>
          rw [optionAt_withOption_cons hsafe.ne_proto]
          split
          next heq =>
            rw [heq] at hbelow habove ⊢
            rw [List.prefix_cons_inj] at hbelow habove
            rw [ih hsafe.tail hbelow habove, optionAt_cons]
            unfold ownOr
            cases hlookup : (container base).own.lookup part with
            | some child => rfl
            | none =>
                rw [Option.getD_none, Option.bind_none]
                apply optionAt_undefined
                intro hnil
                rw [hnil] at habove
                exact habove List.nil_prefix
          next => rfl

/-- Replacing an option twice leaves the second value. -/
theorem withOption_twice {base v w : Value} {path : List String} (hsafe : Safe path)
    (hpath : path ≠ []) :
    withOption (withOption base path v) path w = withOption base path w := by
  induction path generalizing base with
  | nil => exact absurd rfl hpath
  | cons part rest ih =>
      have hproto := hsafe.ne_proto
      have hown : ownOr (container (withOption base (part :: rest) v)) part =
          withOption (ownOr (container base) part) rest v := by
        rw [container_of_isObject isObject_withOption]
        unfold ownOr
        show ((((container base).put part _).own).lookup part).getD _ = _
        rw [own_put_container base hproto, OrderedMap.lookup_setEntries, if_pos rfl]
        rfl
      have hinner : withOption (withOption (ownOr (container base) part) rest v) rest w =
          withOption (ownOr (container base) part) rest w := by
        cases rest with
        | nil => rfl
        | cons next rest => exact ih hsafe.tail (List.cons_ne_nil _ _)
      have houter : withOption (withOption base (part :: rest) v) (part :: rest) w =
          (container (withOption base (part :: rest) v)).put part
            (withOption (ownOr (container (withOption base (part :: rest) v)) part) rest w) := rfl
      rw [houter, hown, hinner, container_of_isObject isObject_withOption]
      show ((container base).put part _).put part _ = (container base).put part _
      rw [Value.put_put hproto]

/-- Only the replaced option becomes a value that is no object. -/
theorem optionAt_scalar {base value x : Value} {path other : List String} (hsafe : Safe path)
    (hvalue : isObject value = false)
    (hother : optionAt (withOption base path value) other = some x)
    (hx : isObject x = false) : other = path ∨ optionAt base other = some x := by
  induction path generalizing base other with
  | nil =>
      cases other with
      | nil => exact Or.inl rfl
      | cons first rest =>
          change optionAt value (first :: rest) = some x at hother
          unfold optionAt at hother
          rw [hvalue] at hother
          cases hother
  | cons part rest ih =>
      cases other with
      | nil =>
          change some (withOption base (part :: rest) value) = some x at hother
          rw [← Option.some.inj hother, isObject_withOption] at hx
          cases hx
      | cons first others =>
          rw [optionAt_withOption_cons hsafe.ne_proto] at hother
          split at hother
          next heq =>
            rw [heq]
            cases others with
            | nil =>
                cases rest with
                | nil => exact Or.inl rfl
                | cons next rest =>
                    change some (withOption _ (next :: rest) value) = some x at hother
                    rw [← Option.some.inj hother, isObject_withOption] at hx
                    cases hx
            | cons next others =>
                rcases ih hsafe.tail hother with hsame | hbase
                · exact Or.inl (congrArg (List.cons part) hsame)
                · refine Or.inr ?_
                  rw [optionAt_cons]
                  unfold ownOr at hbase
                  cases hlookup : (container base).own.lookup part with
                  | some child =>
                      rw [hlookup] at hbase
                      exact hbase
                  | none =>
                      rw [hlookup, Option.getD_none,
                        optionAt_undefined (List.cons_ne_nil _ _)] at hbase
                      cases hbase
          next => exact Or.inr hother

/-!
# What is collected
-/

theorem tidy_withOption {base value : Value} {path : List String} (hbase : tidy base = true)
    (hvalue : tidy value = true) (hsafe : Safe path) :
    tidy (withOption base path value) = true := by
  induction path generalizing base with
  | nil => exact hvalue
  | cons part rest ih =>
      rcases tidy_cases hbase with ⟨entries, hentries, htidy⟩
      unfold withOption
      rw [hentries]
      exact tidy_put htidy hsafe.ne_proto (ih (tidy_ownOr htidy part) hsafe.tail)

/-!
# Merging what is collected
-/

/-- What the loop of the merge writes under a key. -/
def mergedAt (target : Value) (key : String) (value : Value) : Value :=
  if isObject value then mergeDeep (container (target.get key)) value else value

theorem mergeInto_append (target result : Value) (first second : Entries) :
    mergeInto target result (first ++ second) =
      mergeInto target (mergeInto target result first) second := by
  induction first generalizing result with
  | nil => rfl
  | cons entry rest ih =>
      rcases entry with ⟨key, value⟩
      rw [List.cons_append, mergeInto_cons, mergeInto_cons]
      exact ih _

theorem setEntries_comm {entries : Entries} {first second : String} {v w : Value}
    (hmem : first ∈ entries.map Prod.fst) (hne : second ≠ first) :
    OrderedMap.setEntries second w (OrderedMap.setEntries first v entries) =
      OrderedMap.setEntries first v (OrderedMap.setEntries second w entries) := by
  induction entries with
  | nil => cases hmem
  | cons entry rest ih =>
      rcases entry with ⟨key, value⟩
      cases hfirst : decide (key = first) with
      | true =>
          have heq := of_decide_eq_true hfirst
          have hsecond : ¬ key = second := fun h => hne (h.symm.trans heq)
          have hsecond' : ¬ first = second := fun h => hne h.symm
          simp only [OrderedMap.setEntries, if_pos heq, if_neg hsecond, if_neg hsecond']
      | false =>
          have hkey := of_decide_eq_false hfirst
          have hrest : first ∈ rest.map Prod.fst := by
            rw [List.map_cons, List.mem_cons] at hmem
            exact hmem.resolve_left (fun h => hkey h.symm)
          cases hsecond : decide (key = second) with
          | true =>
              have heq := of_decide_eq_true hsecond
              simp only [OrderedMap.setEntries, if_neg hkey, if_pos heq, if_neg hne]
          | false =>
              have hother := of_decide_eq_false hsecond
              simp only [OrderedMap.setEntries, if_neg hkey, if_neg hother]
              rw [ih hrest]

/-- A key that is there already keeps its place whatever is written under other keys. -/
theorem mergeInto_put {target : Value} {entries result : Entries} {name : String} {value : Value}
    (hname : name ≠ Value.protoKey) (hmem : name ∈ result.map Prod.fst)
    (hentries : forall entry, entry ∈ entries -> entry.1 ≠ Value.protoKey ∧ entry.1 ≠ name) :
    mergeInto target ((Value.object result).put name value) entries =
      (mergeInto target (Value.object result) entries).put name value := by
  induction entries generalizing result with
  | nil => rfl
  | cons entry rest ih =>
      rcases entry with ⟨key, v⟩
      have hkey := hentries (key, v) List.mem_cons_self
      rw [mergeInto_cons, mergeInto_cons, Value.put_object hname, Value.put_object hkey.1,
        setEntries_comm hmem hkey.2, Value.put_object hkey.1, ← Value.put_object hname]
      apply ih
      · rw [OrderedMap.mem_keys_setEntries]
        exact Or.inr hmem
      · exact fun other hother => hentries other (List.mem_cons_of_mem _ hother)

theorem setEntries_absent {entries : Entries} {name : String} {value : Value}
    (h : name ∉ entries.map Prod.fst) :
    OrderedMap.setEntries name value entries = entries ++ [(name, value)] := by
  induction entries with
  | nil => rfl
  | cons entry rest ih =>
      rw [List.map_cons, List.mem_cons, not_or] at h
      unfold OrderedMap.setEntries
      rw [if_neg (fun heq => h.1 heq.symm), ih h.2]
      rfl

theorem setEntries_present {entries : Entries} {name : String}
    (h : name ∈ entries.map Prod.fst) :
    exists before old after, entries = before ++ (name, old) :: after ∧
      name ∉ before.map Prod.fst ∧ forall value,
        OrderedMap.setEntries name value entries = before ++ (name, value) :: after := by
  induction entries with
  | nil => cases h
  | cons entry rest ih =>
      rcases entry with ⟨key, v⟩
      cases hkey : decide (key = name) with
      | true =>
          have heq := of_decide_eq_true hkey
          refine ⟨[], v, rest, ?_, List.not_mem_nil, ?_⟩
          · rw [heq]
            rfl
          · intro value
            exact if_pos heq
      | false =>
          have hne := of_decide_eq_false hkey
          rw [List.map_cons, List.mem_cons] at h
          rcases ih (h.resolve_left (fun heq => hne heq.symm)) with
            ⟨before, old, after, hrest, hbefore, hset⟩
          refine ⟨(key, v) :: before, old, after, ?_, ?_, ?_⟩
          · rw [hrest]
            rfl
          · rw [List.map_cons, List.mem_cons, not_or]
            exact ⟨fun heq => hne heq.symm, hbefore⟩
          · intro value
            unfold OrderedMap.setEntries
            rw [if_neg hne, hset]
            rfl

/-- The merge of an object, entry by entry. -/
theorem mergeInto_object {target : Value} {entries result : Entries}
    (hentries : forall entry, entry ∈ entries -> entry.1 ≠ Value.protoKey)
    (hnodup : (entries.map Prod.fst).Nodup) :
    exists all, mergeInto target (Value.object result) entries = Value.object all ∧
      forall name, all.lookup name =
        (entries.lookup name).elim (result.lookup name)
          (fun value => some (mergedAt target name value)) := by
  induction entries generalizing result with
  | nil => exact ⟨result, rfl, fun name => rfl⟩
  | cons entry rest ih =>
      rcases entry with ⟨key, value⟩
      rw [List.map_cons, List.nodup_cons] at hnodup
      rw [mergeInto_cons, Value.put_object (hentries _ List.mem_cons_self)]
      rcases @ih (OrderedMap.setEntries key (mergedAt target key value) result)
        (fun other hother => hentries other (List.mem_cons_of_mem _ hother)) hnodup.2 with
        ⟨all, hall, hlookup⟩
      refine ⟨all, hall, ?_⟩
      intro name
      rw [hlookup, OrderedMap.lookup_cons_eq_ite, OrderedMap.lookup_setEntries]
      split
      next heq =>
        have hnone : rest.lookup name = none := by
          rw [List.lookup_eq_none_iff]
          intro other hother
          rw [bne_iff_ne]
          intro hsame
          apply hnodup.1
          exact List.mem_map.mpr ⟨other, hother, hsame.symm.trans heq⟩
        rw [hnone, heq]
        rfl
      next => rfl

/-- Writing one more entry and merging is merging and writing it. -/
theorem mergeInto_setEntries {target : Value} {entries result : Entries} {name : String}
    (hname : name ≠ Value.protoKey)
    (hentries : forall entry, entry ∈ entries -> entry.1 ≠ Value.protoKey)
    (hnodup : (entries.map Prod.fst).Nodup) (value : Value) :
    mergeInto target (Value.object result) (OrderedMap.setEntries name value entries) =
      (mergeInto target (Value.object result) entries).put name (mergedAt target name value) := by
  rcases Classical.em (name ∈ entries.map Prod.fst) with hmem | hmem
  · rcases setEntries_present hmem with ⟨before, old, after, heq, hbefore, hset⟩
    rw [heq] at hentries hnodup
    have hproto : forall entry, entry ∈ before -> entry.1 ≠ Value.protoKey :=
      fun entry hentry => hentries entry (List.mem_append_left _ hentry)
    have hnodup' : (before.map Prod.fst).Nodup := by
      rw [List.map_append, List.nodup_append] at hnodup
      exact hnodup.1
    have hafter : forall entry, entry ∈ after ->
        entry.1 ≠ Value.protoKey ∧ entry.1 ≠ name := by
      intro entry hentry
      refine ⟨hentries entry (List.mem_append_right _ (List.mem_cons_of_mem _ hentry)), ?_⟩
      intro hsame
      rw [List.map_append, List.nodup_append, List.map_cons, List.nodup_cons] at hnodup
      exact hnodup.2.1.1 (List.mem_map.mpr ⟨entry, hentry, hsame⟩)
    rcases @mergeInto_object target before result hproto hnodup' with ⟨all, hall, _⟩
    have hpresent : forall v, name ∈ (OrderedMap.setEntries name v all).map Prod.fst := by
      intro v
      rw [OrderedMap.mem_keys_setEntries]
      exact Or.inl rfl
    rw [hset, heq, mergeInto_append, mergeInto_append, mergeInto_cons, mergeInto_cons, hall]
    show mergeInto target ((Value.object all).put name (mergedAt target name value)) after =
      (mergeInto target ((Value.object all).put name (mergedAt target name old)) after).put name _
    rw [Value.put_object hname (mergedAt target name old),
      ← mergeInto_put hname (hpresent _) hafter, ← Value.put_object hname, Value.put_put hname]
  · rw [setEntries_absent hmem, mergeInto_append]
    rfl

/-!
# One more option
-/

/-- Nothing but objects is written on the way to an option. -/
def Open (base : Value) (path : List String) : Prop :=
  forall before x, before ≠ [] -> before <+: path -> before ≠ path ->
    optionAt base before = some x -> isObject x = true

theorem Open.tail {entries : Entries} {part : String} {rest : List String} {child : Value}
    (h : Open (Value.object entries) (part :: rest)) (hchild : entries.lookup part = some child) :
    Open child rest := by
  intro before x hbefore hprefix hne hx
  apply h (part :: before) x (List.cons_ne_nil _ _)
  · exact (List.prefix_cons_inj part).mpr hprefix
  · exact fun heq => hne (List.cons.inj heq).2
  · rw [optionAt_cons]
    show (entries.lookup part).bind _ = _
    rw [hchild]
    exact hx

theorem spread_of_tidy {entries : Entries} :
    (Value.object entries).spread = Value.object entries := rfl

/-- Collecting one more option and merging is merging and replacing it. -/
theorem merge_withOption {config collected value : Value} {path : List String}
    (hconfig : tidy config = true) (hobject : isObject config = true)
    (hcollected : tidy collected = true) (hcollectedObject : isObject collected = true)
    (hvalue : isObject value = false) (hsafe : Safe path) (hpath : path ≠ [])
    (hopen : Open collected path) :
    mergeDeep config (withOption collected path value) =
      withOption (mergeDeep config collected) path value := by
  induction path generalizing config collected with
  | nil => exact absurd rfl hpath
  | cons part rest ih =>
      rcases tidy_isObject hconfig hobject with ⟨entries, hentries⟩
      rcases tidy_isObject hcollected hcollectedObject with ⟨options, hoptions⟩
      rw [hentries] at hconfig ⊢
      rw [hoptions] at hcollected hopen ⊢
      have hproto := hsafe.ne_proto
      rcases tidy_object.mp hcollected with ⟨hnodup, hall⟩
      have hkeys : forall entry, entry ∈ options -> entry.1 ≠ Value.protoKey :=
        fun entry hentry => (hall entry hentry).1
      rcases @mergeInto_object (Value.object entries) options entries hkeys hnodup with
        ⟨merged, hmerged, hlookup⟩
      have hwritten : withOption (Value.object options) (part :: rest) value =
          Value.object (OrderedMap.setEntries part
            (withOption (ownOr (Value.object options) part) rest value) options) := by
        show (Value.object options).put part _ = _
        rw [Value.put_object hproto]
        rfl
      have hinner : mergedAt (Value.object entries) part
            (withOption (ownOr (Value.object options) part) rest value) =
          withOption (ownOr (Value.object merged) part) rest value := by
        cases rest with
        | nil =>
            unfold mergedAt withOption
            rw [hvalue]
            rfl
        | cons next rest =>
            have hchildTidy := tidy_container (tidy_ownOr hconfig part)
            have hunfold : mergedAt (Value.object entries) part
                  (withOption (ownOr (Value.object options) part) (next :: rest) value) =
                mergeDeep (container (ownOr (Value.object entries) part))
                  (withOption (ownOr (Value.object options) part) (next :: rest) value) := by
              unfold mergedAt
              rw [isObject_withOption, if_pos rfl, container_get hproto]
            rw [hunfold]
            have hbelow : forall start, tidy start = true -> isObject start = true ->
                Open start (next :: rest) ->
                  mergeDeep (container (ownOr (Value.object entries) part))
                      (withOption start (next :: rest) value) =
                    withOption (mergeDeep (container (ownOr (Value.object entries) part)) start)
                      (next :: rest) value :=
              fun start htidy hstart hopened => ih hchildTidy (isObject_container _) htidy hstart
                hsafe.tail (List.cons_ne_nil _ _) hopened
            have hfound := hlookup part
            cases hoption : options.lookup part with
            | none =>
                rw [hoption] at hfound
                have hnone : ownOr (Value.object options) part = Value.undefined := by
                  show (options.lookup part).getD _ = _
                  rw [hoption]
                  rfl
                have hsame : ownOr (Value.object merged) part =
                    ownOr (Value.object entries) part := by
                  show (merged.lookup part).getD _ = (entries.lookup part).getD _
                  rw [hfound]
                  rfl
                have hempty : Open (Value.object []) (next :: rest) := by
                  intro before x hbefore _ _ hx
                  cases before with
                  | nil => exact absurd rfl hbefore
                  | cons first others => cases hx
                rw [hnone, hsame]
                have hone := hbelow (Value.object []) rfl rfl hempty
                rcases tidy_isObject hchildTidy (isObject_container _) with ⟨inner, hplain⟩
                have hkeep : mergeDeep (container (ownOr (Value.object entries) part))
                    (Value.object []) = container (ownOr (Value.object entries) part) := by
                  rw [hplain]
                  rfl
                rw [hkeep, withOption_container] at hone
                exact hone
            | some child =>
                rw [hoption] at hfound
                have hobjectChild : isObject child = true := by
                  apply hopen [part] child (List.cons_ne_nil _ _)
                  · exact (List.prefix_cons_inj part).mpr List.nil_prefix
                  · exact fun heq => absurd (List.cons.inj heq).2 (List.cons_ne_nil _ _).symm
                  · rw [optionAt_cons]
                    show (options.lookup part).bind _ = _
                    rw [hoption]
                    rfl
                have hsome : ownOr (Value.object options) part = child := by
                  show (options.lookup part).getD _ = _
                  rw [hoption]
                  rfl
                have hsame : ownOr (Value.object merged) part =
                    mergeDeep (container (ownOr (Value.object entries) part)) child := by
                  show (merged.lookup part).getD _ = _
                  rw [hfound]
                  show mergedAt (Value.object entries) part child = _
                  unfold mergedAt
                  rw [hobjectChild, if_pos rfl, container_get hproto]
                rw [hsome, hsame]
                exact hbelow child (tidy_lookup hcollected hoption) hobjectChild
                  (hopen.tail hoption)
      rw [hwritten, mergeDeep_object, spread_of_tidy, mergeInto_setEntries hproto hkeys hnodup,
        hinner, mergeDeep_object, spread_of_tidy, hmerged]
      rfl

/-!
# All arguments
-/

/-- An argument that overrides one option. -/
structure Override where
  target : Target
  option : List String
  value : String

namespace Override

def path (override : Override) : List String := override.target.path override.option

def arg (override : Override) : String := overrideArg override.path override.value

/-- The argument can be written, and its key is split into the names that were meant. -/
def Faithful (override : Override) : Prop :=
  override.target.Valid ∧ Writable override.option ∧ Safe override.path ∧
    pieces override.path = override.path

theorem path_ne_nil (override : Override) : override.path ≠ [] := by
  unfold path
  cases override.target with
  | defaults => exact List.cons_ne_nil _ _
  | place name => exact List.cons_ne_nil _ _

end Override

/-- A config with one option after the other replaced. -/
def replaced (base : Value) (overrides : List Override) : Value :=
  overrides.foldl (fun config override =>
    withOption config override.path (coerce override.value)) base

/-- No argument is written inside the option of an earlier one. -/
def Outward (overrides : List Override) : Prop :=
  overrides.Pairwise (fun earlier later =>
    earlier.path <+: later.path -> earlier.path = later.path)

instance (overrides : List Override) : Decidable (Outward overrides) :=
  inferInstanceAs (Decidable (overrides.Pairwise (fun earlier later =>
    earlier.path <+: later.path -> earlier.path = later.path)))

/-- Neither option is inside the other. -/
def Apart (override : Override) (path : List String) : Prop :=
  ¬ override.path <+: path ∧ ¬ path <+: override.path

instance (override : Override) (path : List String) : Decidable (Apart override path) :=
  inferInstanceAs (Decidable (¬ override.path <+: path ∧ ¬ path <+: override.path))

theorem replaced_append (base : Value) (overrides : List Override) (override : Override) :
    replaced base (overrides ++ [override]) =
      withOption (replaced base overrides) override.path (coerce override.value) := by
  unfold replaced
  rw [List.foldl_append]
  rfl

theorem tidy_coerce (value : String) : tidy (coerce value) = true := by
  unfold coerce
  split
  · rfl
  · split
    · rfl
    · split
      · rfl
      · rfl

theorem isObject_replaced {base : Value} {overrides : List Override}
    (hbase : isObject base = true) : isObject (replaced base overrides) = true := by
  induction overrides using List.reverseRecOn with
  | nil => exact hbase
  | append_singleton overrides override ih =>
      rw [replaced_append]
      cases hpath : override.path with
      | nil => exact absurd hpath override.path_ne_nil
      | cons part rest => exact isObject_withOption

theorem tidy_replaced {base : Value} {overrides : List Override} (hbase : tidy base = true)
    (hsafe : forall override, override ∈ overrides -> Safe override.path) :
    tidy (replaced base overrides) = true := by
  induction overrides using List.reverseRecOn with
  | nil => exact hbase
  | append_singleton overrides override ih =>
      rw [replaced_append]
      apply tidy_withOption
      · exact ih (fun other hother => hsafe other (List.mem_append_left _ hother))
      · exact tidy_coerce _
      · exact hsafe override (List.mem_append_right _ (List.mem_singleton_self _))

theorem parseArgs_overrides {parsed : Parsed} {overrides : List Override}
    (hobject : isObject parsed.overrides = true) (htidy : tidy parsed.overrides = true)
    (hall : forall override, override ∈ overrides -> override.Faithful) :
    parseArgs parsed (overrides.map Override.arg) =
      Except.ok { parsed with overrides := replaced parsed.overrides overrides } := by
  induction overrides generalizing parsed with
  | nil => rfl
  | cons override rest ih =>
      rcases hall override List.mem_cons_self with ⟨hvalid, hwritable, hsafe, hpieces⟩
      have hoption : optionOf override.arg = some (joined override.path, override.value.toList) :=
        optionOf_overrideArg (no_equals hvalid hwritable)
      have hnested : setNested (String.ofList (joined override.path)) parsed.overrides
          (pieces override.path) (coerce (String.ofList override.value.toList)) =
            Except.ok (withOption parsed.overrides override.path (coerce override.value)) := by
        rw [hpieces, String.ofList_toList]
        exact setNested_tidy hobject htidy hsafe override.path_ne_nil
      have hstep : parseOption parsed (joined override.path) override.value.toList =
          Except.ok { parsed with
            overrides := withOption parsed.overrides override.path (coerce override.value) } :=
        (parseOption_path hwritable.1).trans (bind_ok.mpr ⟨_, hnested, rfl⟩)
      rw [List.map_cons]
      unfold parseArgs
      rw [hoption]
      refine bind_ok.mpr ⟨_, hstep, ?_⟩
      apply ih
      · exact @isObject_replaced _ [override] hobject
      · exact tidy_withOption htidy (tidy_coerce _) hsafe
      · exact fun other hother => hall other (List.mem_cons_of_mem _ hother)

/-- What is collected is an object everywhere but at the options that were named. -/
theorem named_of_scalar {overrides : List Override} {path : List String} {x : Value}
    (hsafe : forall override, override ∈ overrides -> Safe override.path)
    (hpath : path ≠ []) (hx : isObject x = false)
    (h : optionAt (replaced (Value.object []) overrides) path = some x) :
    exists override, override ∈ overrides ∧ override.path = path := by
  induction overrides using List.reverseRecOn with
  | nil =>
      cases path with
      | nil => exact absurd rfl hpath
      | cons part rest => cases h
  | append_singleton overrides override ih =>
      rw [replaced_append] at h
      have hlast : override ∈ overrides ++ [override] :=
        List.mem_append_right _ (List.mem_singleton_self _)
      cases optionAt_scalar (hsafe override hlast) (isObject_coerce _) h hx with
      | inl hsame => exact ⟨override, hlast, hsame.symm⟩
      | inr hbefore =>
          rcases ih (fun other hother => hsafe other (List.mem_append_left _ hother)) hbefore with
            ⟨other, hother, hsame⟩
          exact ⟨other, List.mem_append_left _ hother, hsame⟩

/-- Merging what the arguments say replaces one option after the other. -/
theorem merge_replaced {config : Value} {overrides : List Override}
    (htidy : tidy config = true) (hobject : isObject config = true)
    (hsafe : forall override, override ∈ overrides -> Safe override.path)
    (houtward : Outward overrides) :
    mergeDeep config (replaced (Value.object []) overrides) = replaced config overrides := by
  induction overrides using List.reverseRecOn with
  | nil =>
      rcases tidy_isObject htidy hobject with ⟨entries, hentries⟩
      rw [hentries]
      rfl
  | append_singleton overrides override ih =>
      have hbefore : forall other, other ∈ overrides -> Safe other.path :=
        fun other hother => hsafe other (List.mem_append_left _ hother)
      unfold Outward at houtward
      rw [List.pairwise_append] at houtward
      have hopen : Open (replaced (Value.object []) overrides) override.path := by
        intro before x hne hprefix hstrict hx
        cases hscalar : isObject x with
        | true => rfl
        | false =>
            rcases named_of_scalar hbefore hne hscalar hx with ⟨other, hother, hsame⟩
            have hequal := houtward.2.2 other hother override (List.mem_singleton_self _)
            rw [hsame] at hequal
            exact absurd (hequal hprefix) hstrict
      rw [replaced_append, replaced_append, ← ih hbefore houtward.1]
      apply merge_withOption htidy hobject
      · exact tidy_replaced rfl hbefore
      · exact isObject_replaced rfl
      · exact isObject_coerce _
      · exact hsafe override (List.mem_append_right _ (List.mem_singleton_self _))
      · exact override.path_ne_nil
      · exact hopen

/-- An option no argument names keeps its value. -/
theorem optionAt_replaced_other {base : Value} {overrides : List Override} {path : List String}
    (hsafe : forall override, override ∈ overrides -> Safe override.path)
    (hapart : forall override, override ∈ overrides -> Apart override path) :
    optionAt (replaced base overrides) path = optionAt base path := by
  induction overrides using List.reverseRecOn with
  | nil => rfl
  | append_singleton overrides override ih =>
      have hlast : override ∈ overrides ++ [override] :=
        List.mem_append_right _ (List.mem_singleton_self _)
      rw [replaced_append, optionAt_withOption_other (hsafe override hlast)
        (hapart override hlast).1 (hapart override hlast).2]
      apply ih
      · exact fun other hother => hsafe other (List.mem_append_left _ hother)
      · exact fun other hother => hapart other (List.mem_append_left _ hother)

/-- The last argument that names an option decides its value. -/
theorem optionAt_replaced_last {base : Value} {before after : List Override}
    {override : Override}
    (hsafe : forall other, other ∈ before ++ override :: after -> Safe other.path)
    (hapart : forall other, other ∈ after -> Apart other override.path) :
    optionAt (replaced base (before ++ override :: after)) override.path =
      some (coerce override.value) := by
  have hsplit : replaced base (before ++ override :: after) =
      replaced (replaced base (before ++ [override])) after := by
    unfold replaced
    rw [← List.foldl_append, List.append_assoc]
    rfl
  rw [hsplit, optionAt_replaced_other _ hapart, replaced_append]
  · exact optionAt_withOption_self
      (hsafe override (List.mem_append_right _ List.mem_cons_self))
  · exact fun other hother =>
      hsafe other (List.mem_append_right _ (List.mem_cons_of_mem _ hother))

/-- The arguments resolve like the config with their options replaced. -/
theorem fromArgv_overrides (sizeToBytes : String -> Number) {appConfig : Value}
    {overrides : List Override} (hobject : isObject appConfig = true)
    (htidy : tidy (deepClone appConfig) = true)
    (hall : forall override, override ∈ overrides -> override.Faithful)
    (houtward : Outward overrides) :
    fromArgv sizeToBytes ("--" :: overrides.map Override.arg) appConfig =
      ⟨VfsConfig.new sizeToBytes (replaced (baseOf appConfig) overrides), []⟩ := by
  have hparsed : parseArgv ("--" :: overrides.map Override.arg) =
      Except.ok ⟨replaced (Value.object []) overrides, [], []⟩ := by
    show parseArgs ⟨Value.object [], [], []⟩ (overrides.map Override.arg) = _
    exact parseArgs_overrides rfl rfl hall
  have hclone := isObject_deepClone hobject
  have hbase : baseOf appConfig = deepClone appConfig := by
    rcases tidy_isObject htidy hclone with ⟨entries, hentries⟩
    unfold baseOf
    rw [hentries]
    rfl
  unfold fromArgv
  rw [hparsed]
  show (⟨VfsConfig.new sizeToBytes (mergeDeep (deepClone appConfig) _), []⟩ : Outcome) = _
  rw [merge_replaced htidy hclone (fun override hoverride => (hall override hoverride).2.2.1)
    houtward, hbase]

/-!
# Exactly which option
-/

/-- An override reaches the option it means exactly when its key is split into the names
that were meant and the objects on the way are copied as they are, or when it changes
nothing.  Several such overrides replace their options one after the other: the last one
of an option decides, and an option no override names stays as it is. -/
theorem overrides_reach (sizeToBytes : String -> Number) {appConfig : Value}
    (hobject : isObject appConfig = true) :
    (forall (target : Target) (option : List String) (value : String),
      target.Valid -> Writable option ->
      ((Reaches appConfig (target.path option) value <->
          ReachesWhen appConfig (target.path option) value) ∧
        (Reaches appConfig (target.path option) value ->
          fromArgv sizeToBytes ["--", overrideArg (target.path option) value] appConfig =
            ⟨VfsConfig.new sizeToBytes
              (withOption (baseOf appConfig) (target.path option) (coerce value)), []⟩))) ∧
    forall overrides : List Override, tidy (deepClone appConfig) = true ->
      (forall override, override ∈ overrides -> override.Faithful) -> Outward overrides ->
        fromArgv sizeToBytes ("--" :: overrides.map Override.arg) appConfig =
            ⟨VfsConfig.new sizeToBytes (replaced (baseOf appConfig) overrides), []⟩ ∧
          (forall before override after, overrides = before ++ override :: after ->
            (forall other, other ∈ after -> Apart other override.path) ->
              optionAt (replaced (baseOf appConfig) overrides) override.path =
                some (coerce override.value)) ∧
          forall path, (forall override, override ∈ overrides -> Apart override path) ->
            optionAt (replaced (baseOf appConfig) overrides) path =
              optionAt (baseOf appConfig) path := by
  constructor
  · intro target option value hvalid hwritable
    refine ⟨reaches_iff hobject hvalid hwritable, ?_⟩
    intro hreaches
    rcases hreaches with ⟨parsed, hparsed, henable, hdisable, hmerged⟩
    unfold fromArgv
    rw [hparsed]
    show configure sizeToBytes appConfig parsed = _
    unfold configure
    rw [hmerged, if_pos ⟨henable, hdisable⟩]
  · intro overrides htidy hall houtward
    have hsafe : forall override, override ∈ overrides -> Safe override.path :=
      fun override hoverride => (hall override hoverride).2.2.1
    refine ⟨fromArgv_overrides sizeToBytes hobject htidy hall houtward, ?_, ?_⟩
    · intro before override after heq hapart
      rw [heq] at hsafe ⊢
      exact optionAt_replaced_last hsafe hapart
    · exact fun path hapart => optionAt_replaced_other hsafe hapart

theorem overrides_reach_onePlace : isObject onePlace = true ∧
    (Reaches onePlace ["places", "a", "enabled"] "false" <->
      ReachesWhen onePlace ["places", "a", "enabled"] "false") ∧
    optionAt (replaced (baseOf onePlace)
      [⟨Target.place "a", ["enabled"], "true"⟩, ⟨Target.place "a", ["enabled"], "false"⟩])
      ["places", "a", "fs"] = some (Value.boolean true) := by
  refine ⟨rfl, ?_, ?_⟩
  · exact ((@overrides_reach defaultSizes onePlace rfl).1 (Target.place "a") ["enabled"] "false"
      (by rfl) (by decide)).1
  · have hall : forall override : Override, override ∈
        [(⟨Target.place "a", ["enabled"], "true"⟩ : Override),
          ⟨Target.place "a", ["enabled"], "false"⟩] -> override.Faithful := by
      intro override hoverride
      cases List.mem_cons.mp hoverride with
      | inl heq =>
          rw [heq]
          exact ⟨by rfl, by decide, by decide, by decide⟩
      | inr hlast =>
          rw [List.mem_singleton.mp hlast]
          exact ⟨by rfl, by decide, by decide, by decide⟩
    have hrun := (@overrides_reach defaultSizes onePlace rfl).2 _ (by rfl) hall (by decide)
    exact (hrun.2.2 ["places", "a", "fs"] (by decide)).trans rfl

/-- A place whose name has a dot. -/
def dottedPlace : Value :=
  Value.object [("places", Value.object [("my.app", Value.object [("fs", Value.boolean true)])])]

/-- The name is split at its dot, and the override is written below another place. -/
theorem splits_the_name : validateName "my.app" = Except.ok () ∧
    fromArgv defaultSizes ["--", "--vfs.places.my.app.enabled=false"] dottedPlace ≠
      ⟨VfsConfig.new defaultSizes
        (withOption (baseOf dottedPlace) ["places", "my.app", "enabled"] (coerce "false")), []⟩ := by
  refine ⟨by rfl, ?_⟩
  intro h
  have hresult := congrArg (fun outcome => outcome.result.isOk) h
  have hrefused : (fromArgv defaultSizes
      ["--", "--vfs.places.my.app.enabled=false"] dottedPlace).result.isOk = false := by
    decide +kernel
  have haccepted : (VfsConfig.new defaultSizes (withOption (baseOf dottedPlace)
      ["places", "my.app", "enabled"] (coerce "false"))).isOk = true := by
    decide +kernel
  rw [hrefused] at hresult
  exact absurd (hresult.trans haccepted) Bool.false_ne_true

end Config
end SharedMemoryFs
