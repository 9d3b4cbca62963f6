import SharedMemoryFs.Config.Policies

/-!
# Written in another order

Neither the order of the domains of a place nor that of the preparers a domain names
changes what a config is resolved to.  A resolver reads options by name, and the
preparation index depends on which declarations there are alone.
-/

namespace SharedMemoryFs
namespace Config

open Foundation

/-!
# Reordered objects
-/

/-- The same entries in another order, with values that are related by {lit}`inner`. -/
def Reordered (inner : String -> Value -> Value -> Prop) (v v' : Value) : Prop :=
  v = v' ∨ exists entries mid entries', v = Value.object entries ∧ v' = Value.object entries' ∧
    (entries.map Prod.fst).Nodup ∧
    List.Forall₂ (fun a b => a.1 = b.1 ∧ inner a.1 a.2 b.2) entries mid ∧ mid.Perm entries'

/-- The preparers a domain names, in another order. -/
def SamePrepare : Value -> Value -> Prop := Reordered (fun _ => Eq)

def SameDomain : Value -> Value -> Prop :=
  Reordered (fun option => if option = "prepare" then SamePrepare else Eq)

def domainNames : List String := [Domain.fs, Domain.require, Domain.imports].map Domain.text

/-- The options of a place in another order, its domains among them. -/
def SamePlace : Value -> Value -> Prop :=
  Reordered (fun option => if option ∈ domainNames then SameDomain else Eq)

/-- Two configs that write the options of their places in different orders. -/
def Rewritten (raw raw' : Value) : Prop :=
  exists before places places' after,
    raw = Value.object (before ++ ("places", Value.object places) :: after) ∧
    raw' = Value.object (before ++ ("places", Value.object places') :: after) ∧
    "places" ∉ before.map Prod.fst ∧
    List.Forall₂ (fun a b => a.1 = b.1 ∧ SamePlace a.2 b.2) places places'

variable {inner : String -> Value -> Value -> Prop} {v v' : Value}

theorem forall₂_keys {entries mid : Entries}
    (h : List.Forall₂ (fun a b => a.1 = b.1 ∧ inner a.1 a.2 b.2) entries mid) :
    entries.map Prod.fst = mid.map Prod.fst := by
  induction h with
  | nil => rfl
  | cons hhead _ ih => rw [List.map_cons, List.map_cons, hhead.1, ih]

theorem forall₂_lookup {entries mid : Entries}
    (h : List.Forall₂ (fun a b => a.1 = b.1 ∧ inner a.1 a.2 b.2) entries mid)
    (hrefl : forall name v, inner name v v) (name : String) (default : Value) :
    inner name ((entries.lookup name).getD default) ((mid.lookup name).getD default) := by
  induction h with
  | nil => exact hrefl name default
  | @cons a b entries mid hhead _ ih =>
      rw [OrderedMap.lookup_cons_eq_ite, OrderedMap.lookup_cons_eq_ite, ← hhead.1]
      split
      next heq =>
        rw [heq]
        exact hhead.2
      next => exact ih

theorem lookup_perm {entries entries' : Entries} (hnodup : (entries.map Prod.fst).Nodup)
    (h : entries.Perm entries') (name : String) :
    entries.lookup name = entries'.lookup name := by
  have hnodup' : (entries'.map Prod.fst).Nodup := (h.map Prod.fst).nodup_iff.mp hnodup
  apply Option.ext
  intro value
  rw [← OrderedMap.mem_iff_lookup hnodup, ← OrderedMap.mem_iff_lookup hnodup']
  exact h.mem_iff

namespace Reordered

theorem refl (v : Value) : Reordered inner v v := Or.inl rfl

theorem keys_perm (h : Reordered inner v v') : v.keys.Perm v'.keys := by
  rcases h with heq | ⟨entries, mid, entries', hv, hv', _, hall, hperm⟩
  · rw [heq]
  · rw [hv, hv']
    show (entries.map Prod.fst).Perm (entries'.map Prod.fst)
    rw [forall₂_keys hall]
    exact hperm.map Prod.fst

theorem isObject_eq (h : Reordered inner v v') : isObject v = isObject v' := by
  rcases h with heq | ⟨entries, mid, entries', hv, hv', _⟩
  · rw [heq]
  · rw [hv, hv']
    rfl

theorem get (h : Reordered inner v v') (hrefl : forall name v, inner name v v)
    (name : String) : inner name (v.get name) (v'.get name) := by
  rcases h with heq | ⟨entries, mid, entries', hv, hv', hnodup, hall, hperm⟩
  · rw [heq]
    exact hrefl name _
  · rw [hv, hv']
    show inner name ((entries.lookup name).getD _) ((entries'.lookup name).getD _)
    rw [← lookup_perm (forall₂_keys hall ▸ hnodup) hperm name]
    exact forall₂_lookup hall hrefl name _

theorem symm (h : Reordered inner v v')
    (hsymm : forall name v v', inner name v v' -> inner name v' v) :
    Reordered inner v' v := by
  rcases h with heq | ⟨entries, mid, entries', hv, hv', hnodup, hall, hperm⟩
  · exact Or.inl heq.symm
  · have hflip : List.Forall₂ (fun a b => a.1 = b.1 ∧ inner a.1 a.2 b.2) mid entries := by
      apply List.Forall₂.flip
      apply hall.imp
      intro a b hab
      exact ⟨hab.1.symm, hab.1 ▸ hsymm _ _ _ hab.2⟩
    rcases List.perm_comp_forall₂ hperm.symm hflip with ⟨mid', hall', hperm'⟩
    have hnodup' : (entries'.map Prod.fst).Nodup := by
      rw [← (hperm.map Prod.fst).nodup_iff, ← forall₂_keys hall]
      exact hnodup
    exact Or.inr ⟨entries', mid', entries, hv', hv, hnodup', hall', hperm'⟩

end Reordered

theorem samePrepare_symm {v v' : Value} (h : SamePrepare v v') : SamePrepare v' v :=
  Reordered.symm h (fun _ _ _ heq => heq.symm)

theorem sameDomain_symm {v v' : Value} (h : SameDomain v v') : SameDomain v' v := by
  apply Reordered.symm h
  intro name v v' hinner
  split at hinner
  next heq =>
    rw [if_pos heq]
    exact samePrepare_symm hinner
  next hne =>
    rw [if_neg hne]
    exact hinner.symm

theorem samePlace_symm {v v' : Value} (h : SamePlace v v') : SamePlace v' v := by
  apply Reordered.symm h
  intro name v v' hinner
  split at hinner
  next hmem =>
    rw [if_pos hmem]
    exact sameDomain_symm hinner
  next hne =>
    rw [if_neg hne]
    exact hinner.symm

theorem rewritten_symm {raw raw' : Value} (h : Rewritten raw raw') : Rewritten raw' raw := by
  rcases h with ⟨before, places, places', after, hraw, hraw', hbefore, hall⟩
  refine ⟨before, places', places, after, hraw', hraw, hbefore, ?_⟩
  apply List.Forall₂.flip
  apply hall.imp
  intro a b hab
  exact ⟨hab.1.symm, samePlace_symm hab.2⟩

theorem SameDomain.get_eq {v v' : Value} (h : SameDomain v v') (name : String)
    (hname : name ≠ "prepare") : v.get name = v'.get name := by
  have hget := Reordered.get h (by
    intro name v
    split
    · exact Reordered.refl v
    · rfl) name
  rw [if_neg hname] at hget
  exact hget

theorem SameDomain.get_prepare {v v' : Value} (h : SameDomain v v') :
    SamePrepare (v.get "prepare") (v'.get "prepare") := by
  have hget := Reordered.get h (by
    intro name v
    split
    · exact Reordered.refl v
    · rfl) "prepare"
  rw [if_pos rfl] at hget
  exact hget

theorem SamePlace.get_eq {v v' : Value} (h : SamePlace v v') (name : String)
    (hname : name ∉ domainNames) : v.get name = v'.get name := by
  have hget := Reordered.get h (by
    intro name v
    split
    · exact Reordered.refl v
    · rfl) name
  rw [if_neg hname] at hget
  exact hget

theorem SamePlace.get_domain {v v' : Value} (h : SamePlace v v') (domain : Domain) :
    SameDomain (v.get domain.text) (v'.get domain.text) := by
  have hget := Reordered.get h (by
    intro name v
    split
    · exact Reordered.refl v
    · rfl) domain.text
  have hmem : domain.text ∈ domainNames := by cases domain <;> decide
  rw [if_pos hmem] at hget
  exact hget

/-!
# Reading by name
-/

theorem Reordered.known (h : Reordered inner v v') {field : String} {allowed : List String}
    (hknown : knownKeys field v allowed = Except.ok ()) :
    knownKeys field v' allowed = Except.ok () := by
  rw [knownKeys_ok] at hknown ⊢
  intro key hkey
  exact hknown key (h.keys_perm.mem_iff.mpr hkey)

theorem given_congr {name : String} (h : v.get name = v'.get name) :
    given v name = given v' name := by
  unfold given
  rw [h]

theorem extOr_congr {alpha : Type} {field : String} {wrap : List Ext -> alpha} {absent : alpha}
    (h : v.get "ext" = v'.get "ext") :
    extOr field v wrap absent = extOr field v' wrap absent := by
  unfold extOr
  rw [given_congr h]

/-- A domain that is off or on, and one written as an object, with another object. -/
theorem toggled_congr {alpha : Type} {field : String} {domain : Option alpha}
    {resolve : Value -> Except Thrown alpha} (h : SameDomain v v')
    (hresolve : forall a, resolve v = Except.ok a -> resolve v' = Except.ok a)
    (hok : toggled field v resolve = Except.ok domain) :
    toggled field v' resolve = Except.ok domain := by
  rcases h with heq | ⟨entries, mid, entries', hv, hv', _⟩
  · rw [← heq]
    exact hok
  · rw [hv] at hok hresolve
    rw [hv'] at hresolve ⊢
    rcases bind_ok.mp hok with ⟨_, _, hrest⟩
    rcases bind_ok.mp hrest with ⟨a, ha, hsome⟩
    exact bind_ok.mpr ⟨(), ensure_ok.mpr rfl, bind_ok.mpr ⟨a, hresolve a ha, hsome⟩⟩

theorem resolveFs_congr {field : String} {fs : Option FsDomain} (h : SameDomain v v')
    (hok : resolveFs field v = Except.ok fs) : resolveFs field v' = Except.ok fs := by
  apply toggled_congr h _ hok
  intro a ha
  rcases bind_ok.mp ha with ⟨_, hknown, hrest⟩
  refine bind_ok.mpr ⟨(), Reordered.known h hknown, ?_⟩
  rw [← h.get_eq "script" (by decide), ← h.get_eq "writable" (by decide),
    ← h.get_eq "zeroCopy" (by decide), ← h.get_eq "compress" (by decide),
    ← h.get_eq "fallback" (by decide),
    ← extOr_congr (h.get_eq "ext" (by decide))]
  exact hrest

theorem resolveRequire_congr {field : String} {require : Option RequireConfig}
    (h : SameDomain v v') (hok : resolveRequire field v = Except.ok require) :
    resolveRequire field v' = Except.ok require := by
  apply toggled_congr h _ hok
  intro a ha
  rcases bind_ok.mp ha with ⟨_, hknown, hrest⟩
  refine bind_ok.mpr ⟨(), Reordered.known h hknown, ?_⟩
  rw [← h.get_eq "compile" (by decide),
    ← extOr_congr (h.get_eq "ext" (by decide))]
  exact hrest

theorem resolveImport_congr {field : String} {imports : Option ImportDomain}
    (h : SameDomain v v') (hok : resolveImport field v = Except.ok imports) :
    resolveImport field v' = Except.ok imports := by
  apply toggled_congr h _ hok
  intro a ha
  rcases bind_ok.mp ha with ⟨_, hknown, hrest⟩
  refine bind_ok.mpr ⟨(), Reordered.known h hknown, ?_⟩
  rw [← extOr_congr (h.get_eq "ext" (by decide))]
  exact hrest

/-!
# Preparers by name
-/

theorem assignExts_of {field name : String} {visible : Option (List Ext)} {exts : List Ext}
    {result : Assigned}
    (hvisible : forall ext, ext ∈ exts -> forall list, visible = some list -> ext ∈ list)
    (hnodup : ((result ++ exts.map (fun ext => (ext, name))).map Prod.fst).Nodup) :
    assignExts field name visible result exts =
      Except.ok (result ++ exts.map (fun ext => (ext, name))) := by
  induction exts generalizing result with
  | nil =>
      rw [List.map_nil, List.append_nil]
      rfl
  | cons ext rest ih =>
      have hsee : visible.all (fun visible => decide (ext ∈ visible)) = true := by
        cases visible with
        | none => rfl
        | some list =>
            rw [Option.all_some, decide_eq_true_eq]
            exact hvisible ext List.mem_cons_self list rfl
      have hone : (result ++ [(ext, name)]) ++ rest.map (fun ext => (ext, name)) =
          result ++ (ext :: rest).map (fun ext => (ext, name)) := by
        rw [List.append_assoc]
        rfl
      have hnew : result.lookup ext = none := by
        rw [List.lookup_eq_none_iff]
        intro entry hentry
        rw [bne_iff_ne]
        intro heq
        rw [List.map_append, List.nodup_append] at hnodup
        exact hnodup.2.2 entry.1 (List.mem_map_of_mem hentry) ext
          (by simp) heq.symm
      rw [← hone] at hnodup
      refine bind_ok.mpr ⟨(), ensure_ok.mpr hsee, ?_⟩
      rw [hnew, ← hone]
      exact ih (fun e he => hvisible e (List.mem_cons_of_mem _ he)) hnodup

theorem assignNames_each {field : String} {visible : Option (List Ext)} {entries : Entries}
    {result assigned : Assigned}
    (h : assignNames field visible result entries = Except.ok assigned) {name : String}
    {value : Value} (hmem : (name, value) ∈ entries) :
    preparerName field name = Except.ok () ∧
      exists exts, distinctExtList (field ++ "." ++ name) value = Except.ok exts := by
  induction entries generalizing result with
  | nil => cases hmem
  | cons entry rest ih =>
      rcases entry with ⟨first, list⟩
      rcases bind_ok.mp h with ⟨_, hname, hlist⟩
      rcases bind_ok.mp hlist with ⟨exts, hexts, hassign⟩
      rcases bind_ok.mp hassign with ⟨next, _, hrest⟩
      cases List.mem_cons.mp hmem with
      | inl heq =>
          cases heq
          exact ⟨hname, exts, hexts⟩
      | inr hin => exact ih hrest hin

theorem assignNames_of {field : String} {visible : Option (List Ext)} {entries : Entries}
    {result : Assigned}
    (heach : forall name value, (name, value) ∈ entries ->
      preparerName field name = Except.ok () ∧
        exists exts, distinctExtList (field ++ "." ++ name) value = Except.ok exts)
    (hvisible : forall entry, entry ∈ routed entries ->
      forall list, visible = some list -> entry.1 ∈ list)
    (hnodup : ((result ++ routed entries).map Prod.fst).Nodup) :
    assignNames field visible result entries = Except.ok (result ++ routed entries) := by
  induction entries generalizing result with
  | nil =>
      show Except.ok result = Except.ok (result ++ [])
      rw [List.append_nil]
  | cons entry rest ih =>
      rcases entry with ⟨name, value⟩
      rcases heach name value List.mem_cons_self with ⟨hname, exts, hexts⟩
      have hrouted : routed ((name, value) :: rest) =
          exts.map (fun ext => (ext, name)) ++ routed rest := by
        rw [(distinctExtList_ok hexts).1]
        rfl
      rw [hrouted] at hvisible hnodup ⊢
      rw [← List.append_assoc] at hnodup ⊢
      refine bind_ok.mpr ⟨(), hname, bind_ok.mpr ⟨exts, hexts, bind_ok.mpr
        ⟨result ++ exts.map (fun ext => (ext, name)), ?_, ?_⟩⟩⟩
      · apply assignExts_of
        · intro ext hext list hlist
          exact hvisible (ext, name)
            (List.mem_append_left _ (List.mem_map_of_mem hext)) list hlist
        · rw [List.map_append, List.nodup_append] at hnodup
          exact hnodup.1
      · apply ih
        · exact fun name value hin => heach name value (List.mem_cons_of_mem _ hin)
        · exact fun entry hentry => hvisible entry (List.mem_append_right _ hentry)
        · exact hnodup

theorem routed_eq_flatMap (entries : Entries) :
    routed entries = entries.flatMap (fun entry =>
      (lowered (itemsOf entry.2)).map (fun ext => (ext, entry.1))) := by
  induction entries with
  | nil => rfl
  | cons entry rest ih =>
      rw [List.flatMap_cons, ← ih]
      rfl

theorem domainPrepare_congr {field : String} {scope visible : Option (List Ext)}
    {assigned : Assigned} (h : SamePrepare v v')
    (hok : domainPrepare field v scope visible = Except.ok assigned) :
    exists assigned', domainPrepare field v' scope visible = Except.ok assigned' ∧
      assigned.Perm assigned' := by
  rcases h with heq | ⟨entries, mid, entries', hv, hv', _, hall, hperm⟩
  · rw [← heq]
    exact ⟨assigned, hok, List.Perm.refl _⟩
  · have hmid : entries = mid := by
      have heq : List.Forall₂ Eq entries mid := hall.imp (fun a b hab => Prod.ext hab.1 hab.2)
      rw [List.forall₂_eq_eq_eq] at heq
      exact heq
    rw [← hmid] at hperm
    rw [hv] at hok
    rw [hv']
    rcases bind_ok.mp hok with ⟨_, hobject, hnames⟩
    rcases assignNames_ok hnames List.nodup_nil with ⟨hassigned, hvisible, hnodup⟩
    rw [List.nil_append] at hassigned
    have hrouted : (routed entries).Perm (routed entries') := by
      rw [routed_eq_flatMap, routed_eq_flatMap]
      exact hperm.flatMap_right _
    refine ⟨routed entries', bind_ok.mpr ⟨(), ?_, ?_⟩, ?_⟩
    · have hsome := ensure_ok.mp hobject
      rw [Bool.and_eq_true, decide_eq_true_eq] at hsome
      refine ensure_ok.mpr ?_
      rw [Bool.and_eq_true, decide_eq_true_eq]
      refine ⟨rfl, fun hnil => hsome.2 ?_⟩
      show entries.map Prod.fst = []
      have hkeys : (entries.map Prod.fst).Perm (entries'.map Prod.fst) := hperm.map Prod.fst
      rw [show entries'.map Prod.fst = [] from hnil] at hkeys
      exact hkeys.eq_nil
    · have hnodup' : (([] ++ routed entries').map Prod.fst).Nodup := by
        rw [List.nil_append, ← (hrouted.map Prod.fst).nodup_iff]
        exact hassigned ▸ hnodup
      apply assignNames_of _ _ hnodup'
      · intro name value hmem
        exact assignNames_each hnames (hperm.mem_iff.mpr hmem)
      · intro entry hentry
        exact hvisible entry (hrouted.mem_iff.mpr hentry)
    · rw [hassigned]
      exact hrouted

theorem declared_congr {field : String} {domain : Domain} {scope visible : Option (List Ext)}
    {assigned : Assigned} (h : SameDomain v v')
    (hok : declared field ⟨domain, v, scope, visible⟩ = Except.ok assigned) :
    exists assigned', declared field ⟨domain, v', scope, visible⟩ = Except.ok assigned' ∧
      assigned.Perm assigned' := by
  unfold declared at hok ⊢
  dsimp only at hok ⊢
  rw [← Reordered.isObject_eq h]
  split at hok
  next hobject =>
    rw [if_pos hobject]
    have hprepare := h.get_prepare
    unfold given at hok ⊢
    cases hundefined : (v.get "prepare").isUndefined with
    | true =>
        have heq : v'.get "prepare" = v.get "prepare" := by
          rcases hprepare with heq | ⟨entries, mid, entries', hv, _⟩
          · exact heq.symm
          · rw [hv] at hundefined
            cases hundefined
        rw [hundefined, if_pos rfl] at hok
        rw [heq, hundefined, if_pos rfl]
        exact ⟨assigned, hok, List.Perm.refl _⟩
    | false =>
        have hundefined' : (v'.get "prepare").isUndefined = false := by
          rcases hprepare with heq | ⟨entries, mid, entries', _, hv', _⟩
          · rw [← heq]
            exact hundefined
          · rw [hv']
            rfl
        rw [hundefined] at hok
        rw [hundefined']
        exact domainPrepare_congr hprepare hok
  next hobject =>
    rw [if_neg hobject]
    exact ⟨assigned, hok, List.Perm.refl _⟩

theorem declarations_congr {field : String} {list list' : List Declaration}
    {all : List (Ext × Domain × String)}
    (h : List.Forall₂ (fun d d' => SameDomain d.raw d'.raw ∧ d.domain = d'.domain ∧
      d.scope = d'.scope ∧ d.visible = d'.visible) list list')
    (hok : declarations field list = Except.ok all) :
    exists all', declarations field list' = Except.ok all' ∧ all.Perm all' := by
  induction h generalizing all with
  | nil => exact ⟨all, hok, List.Perm.refl _⟩
  | @cons d d' _ _ hhead _ ih =>
      rcases bind_ok.mp hok with ⟨assigned, hassigned, hrest⟩
      rcases bind_ok.mp hrest with ⟨others, hothers, heq⟩
      cases heq
      rcases hhead with ⟨hraw, hdomain, hscope, hvisible⟩
      rcases declared_congr hraw hassigned with ⟨assigned', hassigned', hperm⟩
      rcases ih hothers with ⟨others', hothers', hperm'⟩
      rw [hdomain, hscope, hvisible] at hassigned'
      refine ⟨_, bind_ok.mpr ⟨assigned', hassigned', bind_ok.mpr ⟨others', hothers', rfl⟩⟩, ?_⟩
      rw [hdomain]
      exact (hperm.map _).append hperm'

theorem indexOf_of {field : String} {all : List (Ext × Domain × String)} {exts : List Ext}
    (h : forall ext, ext ∈ exts -> (declarationsOf all ext).length = 1) :
    exists index, indexOf field all exts = Except.ok index := by
  induction exts with
  | nil => exact ⟨[], rfl⟩
  | cons ext rest ih =>
      rcases ih (fun e he => h e (List.mem_cons_of_mem _ he)) with ⟨index, hindex⟩
      rcases List.length_eq_one_iff.mp (h ext List.mem_cons_self) with ⟨⟨domain, name⟩, hone⟩
      refine ⟨(ext, name) :: index, ?_⟩
      unfold indexOf
      rw [hone]
      exact bind_ok.mpr ⟨index, hindex, rfl⟩

/-- Two preparation indices that answer the same for every extension. -/
def SameIndex (prepare prepare' : Option Assigned) : Prop :=
  prepare.isSome = prepare'.isSome ∧
    forall ext, (prepare.getD []).lookup ext = (prepare'.getD []).lookup ext

theorem resolvePrepare_congr {name : PlaceName} {fs : Option FsDomain}
    {require : Option RequireConfig} {imports : Option ImportDomain}
    {prepare : Option Assigned} (h : SamePlace v v')
    (hok : resolvePrepare name v fs require imports = Except.ok prepare) :
    exists prepare', resolvePrepare name v' fs require imports = Except.ok prepare' ∧
      SameIndex prepare prepare' := by
  rcases bind_ok.mp hok with ⟨own, hown, hrest⟩
  rcases bind_ok.mp hrest with ⟨all, hall, hindex⟩
  have hfs : SameDomain (v.get "fs") (v'.get "fs") := h.get_domain Domain.fs
  have hown' : ownExt (v'.get "fs") = Except.ok own := by
    rw [← hown]
    unfold ownExt
    rw [← Reordered.isObject_eq hfs, ← extOr_congr (hfs.get_eq "ext" (by decide))]
  have hlists : List.Forall₂ (fun d d' => SameDomain d.raw d'.raw ∧ d.domain = d'.domain ∧
      d.scope = d'.scope ∧ d.visible = d'.visible)
      (declarationList v own fs require imports) (declarationList v' own fs require imports) := by
    unfold declarationList
    exact List.Forall₂.cons ⟨hfs, rfl, rfl, rfl⟩
      (List.Forall₂.cons ⟨h.get_domain Domain.require, rfl, rfl, rfl⟩
        (List.Forall₂.cons ⟨h.get_domain Domain.imports, rfl, rfl, rfl⟩ List.Forall₂.nil))
  rcases declarations_congr hlists hall with ⟨all', hall', hperm⟩
  have hempty : all = [] <-> all' = [] := by
    constructor
    · intro heq
      rw [heq] at hperm
      exact hperm.symm.eq_nil
    · intro heq
      rw [heq] at hperm
      exact hperm.eq_nil
  split at hindex
  next heq =>
    cases hindex
    refine ⟨none, bind_ok.mpr ⟨own, hown', bind_ok.mpr ⟨all', hall', ?_⟩⟩, rfl, fun _ => rfl⟩
    rw [if_pos (hempty.mp heq)]
    rfl
  next hne =>
    rcases bind_ok.mp hindex with ⟨index, hindexed, hsome⟩
    cases hsome
    rcases indexOf_ok hindexed with ⟨honce, hlookup⟩
    have honce' : forall ext, ext ∈ union [all'.map Prod.fst] ->
        (declarationsOf all' ext).length = 1 := by
      intro ext hext
      rw [← count_declarationsOf, ← (hperm.map Prod.fst).count_eq, count_declarationsOf]
      apply honce
      rw [mem_union] at hext ⊢
      rcases hext with ⟨list, hlist, hin⟩
      rw [List.mem_singleton.mp hlist] at hin
      exact ⟨_, List.mem_singleton.mpr rfl, (hperm.map Prod.fst).mem_iff.mpr hin⟩
    rcases indexOf_of honce' with ⟨index', hindexed'⟩
    refine ⟨some index', bind_ok.mpr ⟨own, hown', bind_ok.mpr ⟨all', hall', ?_⟩⟩, rfl, ?_⟩
    · rw [if_neg (fun heq => hne (hempty.mpr heq))]
      exact bind_ok.mpr ⟨index', hindexed', rfl⟩
    · intro ext
      apply Option.ext
      intro prepared
      rw [Option.getD_some, Option.getD_some, hlookup, (indexOf_ok hindexed').2, mem_union,
        mem_union]
      simp only [List.mem_singleton, exists_eq_left, (hperm.map Prod.fst).mem_iff,
        hperm.mem_iff]

/-!
# Places and configs
-/

/-- Two places that differ in the order of their preparation index at most. -/
def SamePolicies (place place' : Place) : Prop :=
  place' = { place with prepare := place'.prepare } ∧ SameIndex place.prepare place'.prepare

theorem validatePlace_congr {place : Place} {global : Global} {prepare : Option Assigned}
    (h : place.prepare.isSome = prepare.isSome) :
    validatePlace { place with prepare := prepare } global = validatePlace place global := by
  rcases place with ⟨name, enabled, provider, origin, maxFileSize, fs, require, imports, scanExt,
    old⟩
  cases old with
  | none =>
      cases prepare with
      | none => rfl
      | some index => cases h
  | some index' =>
      cases prepare with
      | none => cases h
      | some index => rfl

theorem resolves_congr {sizeToBytes : String -> Number} {name : PlaceName} {global : Global}
    {built : Place} (h : SamePlace v v') (hbuilt : Resolves sizeToBytes name v global built) :
    exists prepare, SameIndex built.prepare prepare ∧
      Resolves sizeToBytes name v' global { built with prepare := prepare } := by
  rcases resolvePrepare_congr h hbuilt.prepare with ⟨prepare, hprepare, hsame⟩
  have hsize : given v "maxFileSize" = given v' "maxFileSize" :=
    given_congr (h.get_eq "maxFileSize" (by decide))
  refine ⟨prepare, hsame, ?_⟩
  constructor
  · exact hbuilt.named
  · exact hbuilt.validName
  · exact (Reordered.isObject_eq h) ▸ hbuilt.isObject
  · exact Reordered.known h hbuilt.known
  · exact (h.get_eq "provider" (by decide)) ▸ hbuilt.provider
  · exact (h.get_eq "enabled" (by decide)) ▸ hbuilt.enabled
  · exact (h.get_eq "origin" (by decide)) ▸ hbuilt.origin
  · rw [← hbuilt.maxFileSize]
    unfold maxFileSizeOf
    rw [hsize]
  · exact resolveFs_congr (h.get_domain Domain.fs) hbuilt.fs
  · exact resolveRequire_congr (h.get_domain Domain.require) hbuilt.require
  · exact resolveImport_congr (h.get_domain Domain.imports) hbuilt.imports
  · exact hsize ▸ hbuilt.pooled
  · exact hbuilt.scanExt
  · exact hprepare
  · rw [validatePlace_congr hsame.1]
    exact hbuilt.valid

theorem resolvePlace_congr {sizeToBytes : String -> Number} {name : PlaceName} {global : Global}
    {place : Place} (h : SamePlace v v')
    (hok : resolvePlace sizeToBytes name v global = Except.ok place) :
    exists place', resolvePlace sizeToBytes name v' global = Except.ok place' ∧
      SamePolicies place place' := by
  rcases resolvePlace_ok hok with ⟨built, hbuilt, hnormalized⟩
  rcases resolves_congr h hbuilt with ⟨prepare, hsame, hbuilt'⟩
  rcases normalizeFallback_ok hnormalized with ⟨fallback, heq⟩
  have hflag : place.enabled = built.enabled := by rw [heq]
  have hnormalized' := normalizeFallback_frame built.enabled prepare hnormalized
  rw [← hflag] at hnormalized'
  refine ⟨{ place with prepare := prepare }, resolvePlace_of_resolves hbuilt' ?_, rfl, ?_⟩
  · rw [← hnormalized', hflag]
  · rw [heq]
    exact hsame

theorem resolvePlaces_congr {sizeToBytes : String -> Number} {global : Global}
    {entries entries' : Entries} {places : List Place}
    (h : List.Forall₂ (fun a b => a.1 = b.1 ∧ SamePlace a.2 b.2) entries entries')
    (hok : resolvePlaces sizeToBytes global entries = Except.ok places) :
    exists places', resolvePlaces sizeToBytes global entries' = Except.ok places' ∧
      List.Forall₂ SamePolicies places places' := by
  induction h generalizing places with
  | nil =>
      cases hok
      exact ⟨[], rfl, List.Forall₂.nil⟩
  | @cons a b _ _ hhead _ ih =>
      rcases a with ⟨name, raw⟩
      rcases b with ⟨name', raw'⟩
      rcases bind_ok.mp hok with ⟨place, hplace, hrest⟩
      rcases bind_ok.mp hrest with ⟨others, hothers, heq⟩
      cases heq
      rcases resolvePlace_congr hhead.2 hplace with ⟨place', hplace', hsame⟩
      rcases ih hothers with ⟨others', hothers', hall⟩
      have hname : name = name' := hhead.1
      rw [hname] at hplace'
      exact ⟨place' :: others', bind_ok.mpr ⟨place', hplace',
        bind_ok.mpr ⟨others', hothers', rfl⟩⟩, List.Forall₂.cons hsame hall⟩

theorem validateNames_congr {seen : List (String × PlaceName)} {places places' : List Place}
    (h : List.Forall₂ SamePolicies places places') :
    validateNames seen places' = validateNames seen places := by
  induction h generalizing seen with
  | nil => rfl
  | @cons place place' _ _ hhead _ ih =>
      have hname : place'.name = place.name := by rw [hhead.1]
      unfold validateNames
      rw [hname]
      split
      · rfl
      · exact ih

theorem lookup_splice_ne {before after : Entries} {key name : String} (h : name ≠ key)
    (value : Value) :
    (before ++ (key, value) :: after).lookup name = (before ++ after).lookup name := by
  induction before with
  | nil => exact (OrderedMap.lookup_cons_eq_ite _ _ _ _).trans (if_neg h)
  | cons entry rest ih =>
      rw [List.cons_append, List.cons_append, OrderedMap.lookup_cons_eq_ite,
        OrderedMap.lookup_cons_eq_ite, ih]

theorem rewritten_get {raw raw' : Value} (h : Rewritten raw raw') {name : String}
    (hname : name ≠ "places") : raw'.get name = raw.get name := by
  rcases h with ⟨before, places, places', after, hraw, hraw', _, _⟩
  rw [hraw, hraw']
  show ((before ++ ("places", Value.object places') :: after).lookup name).getD _ =
    ((before ++ ("places", Value.object places) :: after).lookup name).getD _
  rw [lookup_splice_ne hname, lookup_splice_ne hname]

theorem get_places {before after places : Entries} (h : "places" ∉ before.map Prod.fst) :
    (Value.object (before ++ ("places", Value.object places) :: after)).get "places" =
      Value.object places := by
  have hlookup : (before ++ ("places", Value.object places) :: after).lookup "places" =
      some (Value.object places) := by
    induction before with
    | nil => exact (OrderedMap.lookup_cons_eq_ite _ _ _ _).trans (if_pos rfl)
    | cons entry rest ih =>
        rw [List.map_cons, List.mem_cons, not_or] at h
        rw [List.cons_append, OrderedMap.lookup_cons_eq_ite, if_neg h.1]
        exact ih h.2
  show (List.lookup "places" _).getD _ = _
  rw [hlookup]
  rfl

/-- The same config, up to the order of its preparation indices. -/
theorem new_congr {sizeToBytes : String -> Number} {raw raw' : Value} {config : VfsConfig}
    (h : Rewritten raw raw') (hok : VfsConfig.new sizeToBytes raw = Except.ok config) :
    exists config', VfsConfig.new sizeToBytes raw' = Except.ok config' ∧
      config'.global = config.global ∧
      List.Forall₂ SamePolicies config.places config'.places := by
  have hdefaults : raw'.get "defaults" = raw.get "defaults" := rewritten_get h (by decide)
  rcases h with ⟨before, places, places', after, hraw, hraw', hbefore, hall⟩
  rcases new_ok hok with ⟨_, hknown, hglobal, _, hplaces, hnames, _⟩
  have hkeys : raw'.keys = raw.keys := by
    rw [hraw, hraw']
    show (before ++ ("places", Value.object places') :: after).map Prod.fst =
      (before ++ ("places", Value.object places) :: after).map Prod.fst
    rw [List.map_append, List.map_append, List.map_cons, List.map_cons]
  have hentries : placeEntries raw = places := by
    unfold placeEntries
    rw [hraw, get_places hbefore]
    rfl
  have hentries' : placeEntries raw' = places' := by
    unfold placeEntries
    rw [hraw', get_places hbefore]
    rfl
  rw [hentries] at hplaces
  rcases resolvePlaces_congr hall hplaces with ⟨resolved, hresolved, hsame⟩
  refine ⟨⟨deepClone raw', config.global, resolved⟩, new_of ?_ ?_ ?_ ?_ ?_ ?_, rfl, hsame⟩
  · rw [hraw']
    rfl
  · rw [knownKeys_ok, hkeys]
    exact knownKeys_ok.mp hknown
  · rw [hdefaults]
    exact hglobal
  · rw [hraw', get_places hbefore]
    rfl
  · rw [hentries']
    exact hresolved
  · rw [validateNames_congr hsame]
    exact hnames

/-- The policies of every place agree with one another and with what is written, in
whatever order; an extension declared twice or outside its domain is refused. -/
theorem policies_consistent (sizeToBytes : String -> Number) (fileExt : Key -> Ext)
    (raw : Value) :
    (forall config, VfsConfig.new sizeToBytes raw = Except.ok config ->
      (forall place, place ∈ config.places ->
        exists rawPlace, (place.name, rawPlace) ∈ placeEntries raw ∧
          Consistent fileExt rawPlace place) ∧
      forall raw', Rewritten raw raw' ->
        exists config', VfsConfig.new sizeToBytes raw' = Except.ok config' ∧
          config'.global = config.global ∧
          List.Forall₂ SamePolicies config.places config'.places) ∧
    forall name rawPlace, (name, rawPlace) ∈ placeEntries raw -> Clashes rawPlace ->
      forall config, VfsConfig.new sizeToBytes raw ≠ Except.ok config := by
  constructor
  · intro config hok
    refine ⟨?_, fun raw' hrewritten => new_congr hrewritten hok⟩
    intro place hplace
    rcases new_ok hok with ⟨_, _, _, _, hplaces, _, _⟩
    rcases mem_resolvePlaces hplaces hplace with ⟨name, rawPlace, hmem, hresolved⟩
    rw [name_of_resolvePlace hresolved]
    exact ⟨rawPlace, hmem, consistent_of_resolvePlace hresolved⟩
  · intro name rawPlace hmem hclash config hok
    rcases new_ok hok with ⟨_, _, _, _, hplaces, _, _⟩
    rcases resolvePlaces_all hplaces hmem with ⟨place, _, hresolved⟩
    exact not_clashes_of_resolvePlace hresolved hclash

end Config
end SharedMemoryFs
