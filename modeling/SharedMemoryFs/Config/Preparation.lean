import SharedMemoryFs.Config.Domains

/-!
# Preparation

Each domain may declare preparers for extensions.  The preparer works on the file
itself, so an extension has one declaration in the whole place.
-/

namespace SharedMemoryFs
namespace Config

open Foundation

def isPreparerStart (c : Char) : Bool := c.isAlpha || c == '_' || c == '$'

def isPreparerChar (c : Char) : Bool := c.isAlphanum || c == '_' || c == '$' || c == '-'

def isPreparerName (name : String) : Bool :=
  match name.toList with
  | [] => false
  | first :: rest => isPreparerStart first && rest.all isPreparerChar

def preparerName (field : String) (name : String) : Except Thrown Unit :=
  ensure (isPreparerName name)
    [field, ": invalid preparer name ", Piece.json (Value.string name),
      " (an identifier registered in the kernel option `preparers`)"]

/-- The first extension that is listed a second time. -/
def repeatedExt (seen : List Ext) : List Value -> Option Ext
  | [] => none
  | Value.string text :: rest =>
      if lowercase text ∈ seen then some (lowercase text)
      else repeatedExt (seen ++ [lowercase text]) rest
  | _ :: rest => repeatedExt seen rest

/-- An extension list that names every extension once. -/
def distinctExtList (field : String) (value : Value) : Except Thrown (List Ext) := do
  let list <- extListOf field value
  if list.length < (itemsOf value).length then
    match repeatedExt [] (itemsOf value) with
    | some ext => fail [field, ": extension \"", ext, "\" is listed twice"]
    | none => return list
  else return list

/-- What a preparer is given, in the order it was declared. -/
abbrev Assigned := List (Ext × String)

/-- The loop over the extensions listed under one preparer. -/
def assignExts (field name : String) (visible : Option (List Ext)) (result : Assigned) :
    List Ext -> Except Thrown Assigned
  | [] => Except.ok result
  | ext :: rest => do
      ensure (visible.all (fun visible => decide (ext ∈ visible)))
        [field, ".", name, ": extension \"", ext, "\" is not in the domain ext"]
      match result.lookup ext with
      | some other =>
          fail [field, ": extension \"", ext, "\" is assigned to both \"", other, "\" and \"",
            name, "\""]
      | none => assignExts field name visible (result ++ [(ext, name)]) rest

/-- The loop over the preparers a domain names. -/
def assignNames (field : String) (visible : Option (List Ext)) (result : Assigned) :
    Entries -> Except Thrown Assigned
  | [] => Except.ok result
  | (name, value) :: rest => do
      preparerName field name
      let exts <- distinctExtList (field ++ "." ++ name) value
      let assigned <- assignExts field name visible result exts
      assignNames field visible assigned rest

/-- Extensions one domain's {lit}`prepare` assigns: every extension of {lit}`scope`, or
those listed under each name, which must be in {lit}`visible`. -/
def domainPrepare (field : String) (raw : Value) (scope visible : Option (List Ext)) :
    Except Thrown Assigned :=
  match raw with
  | Value.string name => do
      preparerName field name
      match scope with
      | none =>
          fail [field, ": \"", name, "\" needs a finite ext list in this domain; ",
            "route extensions explicitly: \x7b ", name, ": [ext, …] \x7d"]
      | some scope => return scope.map (fun ext => (ext, name))
  | _ => do
      ensure (isObject raw && decide (raw.keys ≠ []))
        [field, " must be a preparer name or \x7b name: [ext, …] \x7d",
          if raw.isFunction then ", got a function" else ""]
      assignNames field visible [] raw.own

/-- One {lit}`prepare` as it stands in a domain. -/
structure Declaration where
  domain : Domain
  raw : Value
  scope : Option (List Ext)
  visible : Option (List Ext)

/-- The extensions a domain assigns, none when it declares nothing. -/
def declared (field : String) (declaration : Declaration) : Except Thrown Assigned :=
  if isObject declaration.raw then
    match given declaration.raw "prepare" with
    | none => Except.ok []
    | some prepare =>
        domainPrepare (field ++ "." ++ declaration.domain.text ++ ".prepare") prepare
          declaration.scope declaration.visible
  else Except.ok []

/-- The own extensions of the fs domain, without those of its scripts. -/
def ownExt (raw : Value) : Except Thrown (Option (List Ext)) :=
  if isObject raw then extOr "fs" raw some none else Except.ok none

/-- Every declaration of every extension, in the order of the domains. -/
def declarations (field : String) :
    List Declaration -> Except Thrown (List (Ext × Domain × String))
  | [] => Except.ok []
  | declaration :: rest => do
      let assigned <- declared field declaration
      let others <- declarations field rest
      return assigned.map (fun entry => (entry.1, declaration.domain, entry.2)) ++ others

/-- The declarations of one extension. -/
def declarationsOf (all : List (Ext × Domain × String)) (ext : Ext) : List (Domain × String) :=
  (all.filter (fun entry => entry.1 = ext)).map Prod.snd

def arrow (declaration : Domain × String) : String :=
  declaration.1.text ++ ".prepare → \"" ++ declaration.2 ++ "\""

/-- The loop over the declared extensions. -/
def indexOf (field : String) (all : List (Ext × Domain × String)) :
    List Ext -> Except Thrown Assigned
  | [] => Except.ok []
  | ext :: rest =>
      match declarationsOf all ext with
      | [(_, name)] => do
          let index <- indexOf field all rest
          return (ext, name) :: index
      | several =>
          fail [field, ": extension \"", ext, "\" has multiple preparer declarations: ",
            listed (several.map arrow)]

/-- The declarations a place is resolved from. -/
def declarationList (raw : Value) (own : Option (List Ext)) (fs : Option FsDomain)
    (require : Option RequireConfig) (imports : Option ImportDomain) : List Declaration :=
  [⟨Domain.fs, raw.get "fs", own, fs.bind FsDomain.ext⟩,
    ⟨Domain.require, raw.get "require", require.map RequireConfig.ext,
      require.map RequireConfig.ext⟩,
    ⟨Domain.imports, raw.get "import", imports.map ImportDomain.ext,
      imports.map ImportDomain.ext⟩]

/-- The preparation index of a place, nothing when it prepares nothing. -/
def resolvePrepare (name : PlaceName) (raw : Value) (fs : Option FsDomain)
    (require : Option RequireConfig) (imports : Option ImportDomain) :
    Except Thrown (Option Assigned) := do
  let field := "places." ++ name
  let own <- ownExt (raw.get "fs")
  let all <- declarations field (declarationList raw own fs require imports)
  if all = [] then return none
  else do
    let index <- indexOf field all (union [all.map Prod.fst])
    return some index

/-!
# What is written
-/

/-- The extensions listed under the names of preparers. -/
def routed : Entries -> Assigned
  | [] => []
  | (name, list) :: rest => (lowered (itemsOf list)).map (fun ext => (ext, name)) ++ routed rest

/-- Everything a {lit}`prepare` names: all of {lit}`scope` in the short form. -/
def assignments (scope : List Ext) : Value -> Assigned
  | Value.string name => scope.map (fun ext => (ext, name))
  | raw => routed raw.own

/-- Every declaration of one domain, repetitions included. -/
def writtenIn (declaration : Declaration) : List (Ext × Domain × String) :=
  if isObject declaration.raw then
    ((given declaration.raw "prepare").elim []
      (assignments (declaration.scope.getD []))).map
      (fun entry => (entry.1, declaration.domain, entry.2))
  else []

theorem repeatedExt_none {items : List Value} {seen : List Ext}
    (h : repeatedExt seen items = none) :
    (lowered items).Nodup ∧ forall ext, ext ∈ lowered items -> ext ∉ seen := by
  induction items generalizing seen with
  | nil => exact ⟨List.nodup_nil, fun _ hext => absurd hext List.not_mem_nil⟩
  | cons item rest ih =>
      cases item with
      | string text =>
          unfold repeatedExt at h
          split at h
          · cases h
          next hnew =>
            rcases ih h with ⟨hnodup, hrest⟩
            constructor
            · refine List.nodup_cons.mpr ⟨?_, hnodup⟩
              intro hmem
              exact hrest _ hmem (List.mem_append_right _ (List.mem_singleton.mpr rfl))
            · intro ext hext
              cases List.mem_cons.mp hext with
              | inl heq => exact heq ▸ hnew
              | inr hmem => exact fun hseen => hrest ext hmem (List.mem_append_left _ hseen)
      | _ => exact ih h

theorem distinctExtList_ok {field : String} {value : Value} {list : List Ext}
    (h : distinctExtList field value = Except.ok list) :
    list = lowered (itemsOf value) ∧ list.Nodup := by
  rcases bind_ok.mp h with ⟨exts, hexts, hlist⟩
  rcases extListOf_ok hexts with ⟨heq, hlen, _⟩
  have hnodup : (lowered (itemsOf value)).Nodup := by
    split at hlist
    next hlt =>
      split at hlist
      · exact absurd hlist fail_ne_ok
      next hnone => exact (repeatedExt_none hnone).1
    next hge =>
      apply (foldl_addExt_eq.mp _).1
      · exact []
      · rw [← heq, hlen, List.length_nil]
        omega
  have hself : exts = lowered (itemsOf value) := by
    rw [heq, foldl_addExt_self hnodup (fun _ _ => List.not_mem_nil), List.nil_append]
  have hsame : list = exts := by
    split at hlist
    · split at hlist
      · exact absurd hlist fail_ne_ok
      · cases hlist
        rfl
    · cases hlist
      rfl
  rw [hsame, hself]
  exact ⟨rfl, hnodup⟩

theorem not_mem_of_lookup_none {entries : Assigned} {ext : Ext}
    (h : entries.lookup ext = none) : ext ∉ entries.map Prod.fst := by
  rw [List.lookup_eq_none_iff] at h
  intro hmem
  rcases List.mem_map.mp hmem with ⟨entry, hentry, heq⟩
  have hne := h entry hentry
  rw [heq, bne_self_eq_false] at hne
  cases hne

theorem assignExts_ok {field name : String} {visible : Option (List Ext)} {exts : List Ext}
    {result assigned : Assigned}
    (h : assignExts field name visible result exts = Except.ok assigned)
    (hnodup : (result.map Prod.fst).Nodup) :
    assigned = result ++ exts.map (fun ext => (ext, name)) ∧
      (forall ext, ext ∈ exts -> forall list, visible = some list -> ext ∈ list) ∧
        (assigned.map Prod.fst).Nodup := by
  induction exts generalizing result with
  | nil =>
      cases h
      exact ⟨(List.append_nil _).symm, fun _ hext => absurd hext List.not_mem_nil, hnodup⟩
  | cons ext rest ih =>
      rcases bind_ok.mp h with ⟨_, hvisible, hrest⟩
      split at hrest
      · exact absurd hrest fail_ne_ok
      next hnone =>
        have hone : ((result ++ [(ext, name)]).map Prod.fst).Nodup := by
          rw [List.map_append, List.nodup_append]
          refine ⟨hnodup, List.nodup_singleton ext, ?_⟩
          intro a ha b hb heq
          rw [List.map_singleton, List.mem_singleton] at hb
          rw [heq, hb] at ha
          exact not_mem_of_lookup_none hnone ha
        rcases ih hrest hone with ⟨heq, hall, hnodup'⟩
        refine ⟨?_, ?_, hnodup'⟩
        · rw [heq, List.append_assoc]
          rfl
        · intro e he list hlist
          cases List.mem_cons.mp he with
          | inl hhead =>
              have hin := ensure_ok.mp hvisible
              rw [hlist, Option.all_some, decide_eq_true_eq] at hin
              exact hhead ▸ hin
          | inr htail => exact hall e htail list hlist

theorem assignNames_ok {field : String} {visible : Option (List Ext)} {entries : Entries}
    {result assigned : Assigned}
    (h : assignNames field visible result entries = Except.ok assigned)
    (hnodup : (result.map Prod.fst).Nodup) :
    assigned = result ++ routed entries ∧
      (forall entry, entry ∈ routed entries ->
        forall list, visible = some list -> entry.1 ∈ list) ∧
        (assigned.map Prod.fst).Nodup := by
  induction entries generalizing result with
  | nil =>
      cases h
      exact ⟨(List.append_nil _).symm, fun _ hentry => absurd hentry List.not_mem_nil, hnodup⟩
  | cons entry rest ih =>
      rcases entry with ⟨name, value⟩
      rcases bind_ok.mp h with ⟨_, _, hlist⟩
      rcases bind_ok.mp hlist with ⟨exts, hexts, hassign⟩
      rcases bind_ok.mp hassign with ⟨next, hnext, hrest⟩
      rcases assignExts_ok hnext hnodup with ⟨heq, hall, hnodup'⟩
      rcases ih hrest hnodup' with ⟨heq', hall', hnodup''⟩
      have hrouted : routed ((name, value) :: rest) =
          exts.map (fun ext => (ext, name)) ++ routed rest := by
        rw [(distinctExtList_ok hexts).1]
        rfl
      refine ⟨?_, ?_, hnodup''⟩
      · rw [heq', heq, hrouted, List.append_assoc]
      · intro entry hentry list hvisible
        rw [hrouted] at hentry
        cases List.mem_append.mp hentry with
        | inl hhead =>
            rcases List.mem_map.mp hhead with ⟨ext, hext, hentry⟩
            exact hentry ▸ hall ext hext list hvisible
        | inr htail => exact hall' entry htail list hvisible

/-- The short form asks for a finite list of the domain, the explicit one for listed
extensions inside it. -/
theorem domainPrepare_ok {field : String} {raw : Value} {scope visible : Option (List Ext)}
    {assigned : Assigned} (h : domainPrepare field raw scope visible = Except.ok assigned)
    (hscope : forall list, scope = some list -> list.Nodup ∧
      forall ext, ext ∈ list -> forall seen, visible = some seen -> ext ∈ seen) :
    assigned = assignments (scope.getD []) raw ∧
      (forall entry, entry ∈ assigned ->
        forall list, visible = some list -> entry.1 ∈ list) ∧
        (assigned.map Prod.fst).Nodup := by
  unfold domainPrepare at h
  split at h
  next name =>
    rcases bind_ok.mp h with ⟨_, _, hrest⟩
    split at hrest
    · exact absurd hrest fail_ne_ok
    next list =>
      cases hrest
      rcases hscope list rfl with ⟨hnodup, hsub⟩
      refine ⟨rfl, ?_, ?_⟩
      · intro entry hentry seen hseen
        rcases List.mem_map.mp hentry with ⟨ext, hext, heq⟩
        exact heq ▸ hsub ext hext seen hseen
      · rw [List.map_map]
        exact (List.map_id list).symm ▸ hnodup
  next hstring =>
    rcases bind_ok.mp h with ⟨_, _, hrest⟩
    rcases assignNames_ok hrest List.nodup_nil with ⟨heq, hall, hnodup⟩
    have hwritten : assignments (scope.getD []) raw = routed raw.own := by
      unfold assignments
      split
      · exact absurd rfl (hstring _)
      · rfl
    rw [List.nil_append] at heq
    rw [hwritten]
    exact ⟨heq, fun entry hentry => hall entry (heq ▸ hentry), hnodup⟩

/-- The scope of the short form has no repetitions and lies in the domain. -/
def Declaration.Scoped (declaration : Declaration) : Prop :=
  forall list, declaration.scope = some list -> list.Nodup ∧
    forall ext, ext ∈ list -> forall seen, declaration.visible = some seen -> ext ∈ seen

theorem declared_ok {field : String} {declaration : Declaration} {assigned : Assigned}
    (h : declared field declaration = Except.ok assigned) (hscoped : declaration.Scoped) :
    writtenIn declaration =
        assigned.map (fun entry => (entry.1, declaration.domain, entry.2)) ∧
      forall entry, entry ∈ writtenIn declaration ->
        forall list, declaration.visible = some list -> entry.1 ∈ list := by
  unfold declared at h
  unfold writtenIn
  split at h
  next hobject =>
    rw [if_pos hobject]
    split at h
    next hnone =>
      cases h
      rw [hnone]
      exact ⟨rfl, fun _ hentry => absurd hentry List.not_mem_nil⟩
    next prepare hsome =>
      rcases domainPrepare_ok h hscoped with ⟨heq, hall, _⟩
      rw [hsome, Option.elim_some, ← heq]
      refine ⟨rfl, ?_⟩
      intro entry hentry list hlist
      rcases List.mem_map.mp hentry with ⟨pair, hpair, hsame⟩
      exact hsame ▸ hall pair hpair list hlist
  next hobject =>
    cases h
    rw [if_neg hobject]
    exact ⟨rfl, fun _ hentry => absurd hentry List.not_mem_nil⟩

theorem declarations_ok {field : String} {list : List Declaration}
    {all : List (Ext × Domain × String)} (h : declarations field list = Except.ok all)
    (hscoped : forall declaration, declaration ∈ list -> declaration.Scoped) :
    all = list.flatMap writtenIn ∧
      forall declaration, declaration ∈ list -> forall entry, entry ∈ writtenIn declaration ->
        forall seen, declaration.visible = some seen -> entry.1 ∈ seen := by
  induction list generalizing all with
  | nil =>
      cases h
      exact ⟨rfl, fun _ hmem => absurd hmem List.not_mem_nil⟩
  | cons declaration rest ih =>
      rcases bind_ok.mp h with ⟨assigned, hassigned, hrest⟩
      rcases bind_ok.mp hrest with ⟨others, hothers, heq⟩
      cases heq
      have hhead := declared_ok hassigned (hscoped declaration List.mem_cons_self)
      have htail := ih hothers (fun d hd => hscoped d (List.mem_cons_of_mem _ hd))
      constructor
      · rw [List.flatMap_cons, hhead.1, htail.1]
      · intro d hd
        cases List.mem_cons.mp hd with
        | inl heq => exact heq ▸ hhead.2
        | inr hmem => exact htail.2 d hmem

theorem declarations_each {field : String} {list : List Declaration}
    {all : List (Ext × Domain × String)} (h : declarations field list = Except.ok all)
    {declaration : Declaration} (hmem : declaration ∈ list) :
    exists assigned, declared field declaration = Except.ok assigned := by
  induction list generalizing all with
  | nil => cases hmem
  | cons first rest ih =>
      rcases bind_ok.mp h with ⟨assigned, hassigned, hrest⟩
      rcases bind_ok.mp hrest with ⟨others, hothers, _⟩
      cases List.mem_cons.mp hmem with
      | inl heq => exact ⟨assigned, heq ▸ hassigned⟩
      | inr hin => exact ih hothers hin

/-- The short form needs a finite list of its domain. -/
theorem scope_of_short {field : String} {declaration : Declaration} {assigned : Assigned}
    {name : String} (h : declared field declaration = Except.ok assigned)
    (hobject : isObject declaration.raw = true)
    (hshort : declaration.raw.get "prepare" = Value.string name) :
    declaration.scope.isSome = true := by
  unfold declared at h
  have hgiven : given declaration.raw "prepare" = some (Value.string name) := by
    unfold given
    rw [hshort]
    rfl
  rw [if_pos hobject, hgiven] at h
  rcases bind_ok.mp h with ⟨_, _, hrest⟩
  split at hrest
  · exact absurd hrest fail_ne_ok
  next list hscope =>
    rw [hscope]
    rfl

theorem mem_of_declarationsOf {all : List (Ext × Domain × String)} {ext : Ext}
    {declaration : Domain × String} :
    declaration ∈ declarationsOf all ext <-> (ext, declaration) ∈ all := by
  unfold declarationsOf
  constructor
  · intro h
    rcases List.mem_map.mp h with ⟨entry, hentry, heq⟩
    rcases List.mem_filter.mp hentry with ⟨hmem, hext⟩
    rw [← heq, ← of_decide_eq_true hext]
    exact hmem
  · intro h
    exact List.mem_map.mpr ⟨_, List.mem_filter.mpr ⟨h, decide_eq_true rfl⟩, rfl⟩

theorem count_declarationsOf (all : List (Ext × Domain × String)) (ext : Ext) :
    (all.map Prod.fst).count ext = (declarationsOf all ext).length := by
  unfold declarationsOf
  rw [List.length_map, ← List.countP_eq_length_filter, List.count, List.countP_map]
  apply List.countP_congr
  intro entry _
  simp

theorem indexOf_ok {field : String} {all : List (Ext × Domain × String)} {exts : List Ext}
    {index : Assigned} (h : indexOf field all exts = Except.ok index) :
    (forall ext, ext ∈ exts -> (declarationsOf all ext).length = 1) ∧
      forall ext name, index.lookup ext = some name <->
        ext ∈ exts ∧ exists domain, (ext, domain, name) ∈ all := by
  induction exts generalizing index with
  | nil =>
      cases h
      exact ⟨fun _ hext => absurd hext List.not_mem_nil, fun ext name => by simp⟩
  | cons ext rest ih =>
      unfold indexOf at h
      split at h
      next domain name hone =>
        rcases bind_ok.mp h with ⟨others, hothers, heq⟩
        cases heq
        rcases ih hothers with ⟨honce, hlookup⟩
        constructor
        · intro e he
          cases List.mem_cons.mp he with
          | inl heq => rw [heq, hone, List.length_singleton]
          | inr hmem => exact honce e hmem
        · intro e other
          rw [OrderedMap.lookup_cons_eq_ite]
          split
          next heq =>
            constructor
            · intro hname
              rw [← Option.some.inj hname, heq]
              refine ⟨List.mem_cons_self, domain, ?_⟩
              apply mem_of_declarationsOf.mp
              rw [hone]
              exact List.mem_singleton.mpr rfl
            · intro hmem
              rcases hmem with ⟨_, domain', hall⟩
              rw [heq] at hall
              have hin := mem_of_declarationsOf.mpr hall
              rw [hone, List.mem_singleton] at hin
              exact congrArg some (congrArg Prod.snd hin).symm
          next hne =>
            rw [hlookup]
            have hiff : e ∈ ext :: rest <-> e ∈ rest := by
              rw [List.mem_cons]
              constructor
              · intro he
                exact he.resolve_left hne
              · exact Or.inr
            rw [hiff]
      next => exact absurd h fail_ne_ok

theorem ownExt_ok {raw : Value} {own : Option (List Ext)} (h : ownExt raw = Except.ok own) :
    own = if isObject raw then listedExt raw else none := by
  unfold ownExt at h
  split at h
  next hobject =>
    rw [if_pos hobject, extOr_ok h]
    cases listedExt raw with
    | none => rfl
    | some list => rfl
  next hobject =>
    cases h
    rw [if_neg hobject]

/-- The index says what is written, and nothing is written twice. -/
theorem resolvePrepare_ok {name : PlaceName} {raw : Value} {fs : Option FsDomain}
    {require : Option RequireConfig} {imports : Option ImportDomain}
    {prepare : Option Assigned}
    (h : resolvePrepare name raw fs require imports = Except.ok prepare)
    (hscoped : forall own, ownExt (raw.get "fs") = Except.ok own ->
      forall declaration, declaration ∈ declarationList raw own fs require imports ->
        declaration.Scoped) :
    exists own, ownExt (raw.get "fs") = Except.ok own ∧
      (forall declaration, declaration ∈ declarationList raw own fs require imports ->
        forall entry, entry ∈ writtenIn declaration ->
          forall seen, declaration.visible = some seen -> entry.1 ∈ seen) ∧
      (((declarationList raw own fs require imports).flatMap writtenIn).map Prod.fst).Nodup ∧
        forall ext prepared, (prepare.getD []).lookup ext = some prepared <->
          exists domain, (ext, domain, prepared) ∈
            (declarationList raw own fs require imports).flatMap writtenIn := by
  rcases bind_ok.mp h with ⟨own, hown, hrest⟩
  rcases bind_ok.mp hrest with ⟨all, hall, hindex⟩
  rcases declarations_ok hall (hscoped own hown) with ⟨heq, hvisible⟩
  refine ⟨own, hown, hvisible, ?_⟩
  rw [← heq]
  split at hindex
  next hempty =>
    cases hindex
    rw [hempty]
    exact ⟨List.nodup_nil, fun ext prepared => by simp⟩
  next =>
    rcases bind_ok.mp hindex with ⟨index, hindexed, hsome⟩
    cases hsome
    rcases indexOf_ok hindexed with ⟨honce, hlookup⟩
    constructor
    · rw [List.nodup_iff_count_le_one]
      intro ext
      rw [count_declarationsOf]
      cases hmem : decide (ext ∈ all.map Prod.fst) with
      | true =>
          have hin := mem_union.mpr
            ⟨_, List.mem_singleton.mpr rfl, of_decide_eq_true hmem⟩
          exact (honce ext hin).le
      | false =>
          rw [← count_declarationsOf,
            List.count_eq_zero_of_not_mem (of_decide_eq_false hmem)]
          exact Nat.zero_le 1
    · intro ext prepared
      rw [Option.getD_some, hlookup]
      constructor
      · exact And.right
      · intro hdeclared
        rcases hdeclared with ⟨domain, hin⟩
        exact ⟨mem_union.mpr ⟨_, List.mem_singleton.mpr rfl, List.mem_map_of_mem hin⟩,
          domain, hin⟩

end Config
end SharedMemoryFs
