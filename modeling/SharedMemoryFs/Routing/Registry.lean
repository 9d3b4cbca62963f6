import SharedMemoryFs.Foundation.PathText
import SharedMemoryFs.Routing.Router

/-!
# The registry as it reads text

The registry tests the text of a relative path.  It decides what the names of the
path decide, and the path a place gives a key is routed back to the place and the
key.
-/

namespace SharedMemoryFs

open Foundation

/-- {lit}`WIN_RESERVED_RE`. -/
def winReserved (name : PosixPath.Text) : Bool :=
  ["con", "prn", "aux", "nul", "com1", "com2", "com3", "com4", "com5", "com6", "com7", "com8",
    "com9", "lpt1", "lpt2", "lpt3", "lpt4", "lpt5", "lpt6", "lpt7", "lpt8", "lpt9"].any
    (fun device => decide ((name.takeWhile (fun c => c != '.')).map Char.toLower = device.toList))

/-- {lit}`NAME_RE`. -/
def nameRe : PosixPath.Text -> Bool
  | [] => false
  | c :: rest => c.isAlphanum && rest.all (fun d => d.isAlphanum || d == '.' || d == '_' || d == '-')

/-- {lit}`validateName` raises nothing. -/
def validateName (name : PosixPath.Text) : Bool :=
  nameRe name && name.getLast? != some '.' && !winReserved name

theorem validateName_plain {name : PosixPath.Text} (h : validateName name = true) :
    PosixPath.Plain name := by
  have hre : nameRe name = true := by
    unfold validateName at h
    rw [Bool.and_eq_true, Bool.and_eq_true] at h
    exact h.1.1
  cases name with
  | nil => cases hre
  | cons c rest =>
      rw [nameRe, Bool.and_eq_true, List.all_eq_true] at hre
      have hdot : c ≠ '.' := by
        intro heq
        rw [heq] at hre
        exact absurd hre.1 (by decide)
      constructor
      · exact List.cons_ne_nil c rest
      · constructor
        · intro heq
          exact hdot (List.cons.inj heq).1
        · constructor
          · intro heq
            exact hdot (List.cons.inj heq).1
          · intro hsep
            rcases List.mem_cons.mp hsep with hhead | htail
            · rw [← hhead] at hre
              exact absurd hre.1 (by decide)
            · exact absurd (hre.2 _ htail) (by decide)

/-!
# Keys as paths
-/

namespace PlaceFiles

theorem names_trail (dir name rest : Key) :
    exists first tail, PosixPath.split rest = first :: tail ∧
      (trail slash dir name rest).map Prod.snd = (name ++ first) :: tail := by
  induction rest generalizing dir name with
  | nil => exact ⟨[], [], rfl, by rw [List.append_nil]; rfl⟩
  | cons c rest ih =>
      unfold trail
      by_cases hc : c = slash
      · rcases ih (dir ++ slash :: name) [] with ⟨first, tail, hsplit, hnames⟩
        rw [if_pos hc, List.map_cons, hnames]
        have hcons : PosixPath.split (c :: rest) = [] :: PosixPath.split rest := if_pos hc
        rw [hcons, hsplit]
        exact ⟨[], first :: tail, rfl, by rw [List.append_nil]; rfl⟩
      · rcases ih dir (name ++ [c]) with ⟨first, tail, hsplit, hnames⟩
        rcases PosixPath.split_cons_ne hc rest with ⟨first', tail', hsplit', hcons⟩
        rw [hsplit] at hsplit'
        rw [if_neg hc, hnames, hcons, ← (List.cons.inj hsplit').1, ← (List.cons.inj hsplit').2]
        exact ⟨c :: first, tail, rfl, by rw [List.append_assoc]; rfl⟩

theorem names_split (key : Key) : names key = PosixPath.split (key.drop 1) := by
  rcases names_trail [] [] (key.drop 1) with ⟨first, tail, hsplit, hnames⟩
  rw [hsplit]
  exact hnames

/-- A canonical key is the text of plain names, and the key it was given at most
lacks the leading slash. -/
theorem canonicalKey_names {key canonical : Key} (h : canonicalKey key = some canonical) :
    exists found, found ≠ [] ∧ (forall name, name ∈ found -> PosixPath.Plain name) ∧
      canonical = PosixPath.text found ∧
      (key = PosixPath.text found ∨ PosixPath.separator :: key = PosixPath.text found) := by
  have hchecked : forall {rest : Key},
      (if (names (slash :: rest)).all validName = true then some (slash :: rest) else none) =
        some canonical ->
      exists found, found ≠ [] ∧ (forall name, name ∈ found -> PosixPath.Plain name) ∧
        canonical = PosixPath.text found ∧ slash :: rest = PosixPath.text found := by
    intro rest hk
    by_cases hall : (names (slash :: rest)).all validName = true
    · rw [if_pos hall] at hk
      have hnames : names (slash :: rest) = PosixPath.split rest := names_split (slash :: rest)
      rw [hnames] at hall
      have htext := PosixPath.text_split rest
      refine ⟨PosixPath.split rest, PosixPath.split_ne_nil rest, ?_, ?_, htext.symm⟩
      · intro name hname
        have hvalid := of_decide_eq_true (List.all_eq_true.mp hall name hname)
        exact ⟨hvalid.1, hvalid.2.1, hvalid.2.2, PosixPath.split_separator hname⟩
      · rw [htext]
        exact (Option.some.inj hk).symm
    · rw [if_neg hall] at hk
      cases hk
  unfold canonicalKey at h
  by_cases hchars : sep ∈ key ∨ '\\' ∈ key
  · rw [if_pos hchars] at h
    cases h
  · rw [if_neg hchars] at h
    by_cases hhead : key.head? = some slash
    · simp only [if_pos hhead] at h
      rcases List.head?_eq_some_iff.mp hhead with ⟨rest, hrest⟩
      rw [hrest] at h
      rcases hchecked h with ⟨found, hne, hplain, hcanonical, hkey⟩
      exact ⟨found, hne, hplain, hcanonical, Or.inl (hrest.trans hkey)⟩
    · simp only [if_neg hhead] at h
      rcases hchecked h with ⟨found, hne, hplain, hcanonical, hkey⟩
      exact ⟨found, hne, hplain, hcanonical, Or.inr hkey⟩

end PlaceFiles

/-!
# Routing text
-/

/-- {lit}`place.root` under an {lit}`appRoot`. -/
def RoutedPlace.root (place : RoutedPlace) (appRoot : FilePath) : FilePath :=
  PosixPath.join appRoot place.config.name.toList

/-- {lit}`pathOf`. -/
def RoutedPlace.pathOf (place : RoutedPlace) (appRoot : FilePath) (key : Key) : FilePath :=
  if key = [] ∨ key = [slash] then place.root appRoot
  else PosixPath.join (place.root appRoot) key

/-- The constructor of the registry, once every place is registered. -/
def PlaceRegistry.rooted (cwd : PosixPath.WorkingDir) (appRoot : FilePath)
    (places : List RoutedPlace) : PlaceRegistry :=
  { appRoot := PosixPath.resolve cwd.names appRoot
    cwd := cwd.names
    places := places }

namespace PlaceRegistry

variable (registry : PlaceRegistry)

/-- {lit}`this.appRoot`. -/
def rootText : FilePath := PosixPath.absolute registry.appRoot

/-- {lit}`route`, as it reads the relative text. -/
def routeText (filePath : FilePath) : Territory :=
  let rel := PosixPath.relativeText registry.cwd registry.rootText
    (PosixPath.resolveText registry.cwd filePath)
  if PosixPath.outside rel then Territory.outside
  else if rel = [] then Territory.appRoot
  else
    match registry.get (rel.takeWhile (fun c => c != PosixPath.separator)) with
    | none => Territory.unmanaged
    | some place =>
        Territory.owned place (rel.dropWhile (fun c => c != PosixPath.separator))

/-- {lit}`encloses`, as it reads the relative text. -/
def enclosesText (filePath : FilePath) : Bool :=
  let rel := PosixPath.relativeText registry.cwd
    (PosixPath.resolveText registry.cwd filePath) registry.rootText
  decide (rel = []) || !PosixPath.outside rel

end PlaceRegistry

namespace PlaceRegistry

variable {cwd : PosixPath.WorkingDir} {appRoot : FilePath} {places : List RoutedPlace}

theorem rooted_plain : forall name, name ∈ (rooted cwd appRoot places).appRoot ->
    PosixPath.Plain name := PosixPath.resolve_plain cwd appRoot

/-- The decision on what lies below {lit}`appRoot`. -/
def below (registry : PlaceRegistry) (mount : PosixPath.Text) (names : List PosixPath.Text) :
    Territory :=
  (registry.get mount).elim Territory.unmanaged
    (fun place => Territory.owned place (PosixPath.text names))

theorem route_of_relative {registry : PlaceRegistry} {filePath : FilePath}
    {rel : List PosixPath.Text} (hrel : PosixPath.relative registry.appRoot
      (PosixPath.resolve registry.cwd filePath) = rel) :
    (PosixPath.Outside rel -> registry.route filePath = Territory.outside) ∧
      (rel = [] -> registry.route filePath = Territory.appRoot) ∧
      (forall mount names, ¬ PosixPath.Outside rel -> rel = mount :: names ->
        registry.route filePath = registry.below mount names) := by
  unfold route below
  rw [hrel]
  constructor
  · intro hout
    exact if_pos hout
  · constructor
    · intro hnil
      rw [hnil]
      rfl
    · intro mount names hin hcons
      rw [if_neg hin]
      simp only [hcons]
      cases registry.get mount with
      | none => rfl
      | some place => rfl

theorem routeText_of_relative {registry : PlaceRegistry} {filePath : FilePath}
    {rel : List PosixPath.Text} (hrel : PosixPath.relativeText registry.cwd registry.rootText
      (PosixPath.resolveText registry.cwd filePath) = PosixPath.joined rel)
    (hout : PosixPath.outside (PosixPath.joined rel) = true <-> PosixPath.Outside rel) :
    (PosixPath.Outside rel -> registry.routeText filePath = Territory.outside) ∧
      (rel = [] -> registry.routeText filePath = Territory.appRoot) ∧
      (forall mount names, ¬ PosixPath.Outside rel -> rel = mount :: names ->
        PosixPath.Plain mount -> registry.routeText filePath = registry.below mount names) := by
  unfold routeText below
  rw [hrel]
  constructor
  · intro hleads
    exact if_pos (hout.mpr hleads)
  · constructor
    · intro hnil
      rw [hnil]
      rfl
    · intro mount names hin hcons hmount
      have hne : PosixPath.joined (mount :: names) ≠ [] := fun hnil =>
        hmount.1 (List.append_eq_nil_iff.mp hnil).1
      rw [hcons] at hin hout
      simp only [hcons]
      rw [if_neg (fun htext => hin (hout.mp htext)), if_neg hne,
        PosixPath.takeWhile_joined hmount.2.2.2, PosixPath.dropWhile_joined hmount.2.2.2]
      cases registry.get mount with
      | none => rfl
      | some place => rfl

/-- Every path lies outside, at {lit}`appRoot` or below it, and the text of the path is
read as its names are. -/
theorem routeText_cases (cwd : PosixPath.WorkingDir) (appRoot : FilePath)
    (places : List RoutedPlace) (filePath : FilePath) :
    (rooted cwd appRoot places).routeText filePath =
        (rooted cwd appRoot places).route filePath ∧
      ((¬ PosixPath.resolve cwd.names appRoot <+: PosixPath.resolve cwd.names filePath ∧
          (rooted cwd appRoot places).routeText filePath = Territory.outside) ∨
        (PosixPath.resolve cwd.names filePath = PosixPath.resolve cwd.names appRoot ∧
          (rooted cwd appRoot places).routeText filePath = Territory.appRoot) ∨
        exists mount names, PosixPath.resolve cwd.names filePath =
            PosixPath.resolve cwd.names appRoot ++ mount :: names ∧
          (rooted cwd appRoot places).routeText filePath =
            (rooted cwd appRoot places).below mount names) := by
  have hroot := PosixPath.resolve_plain cwd appRoot
  have hpath := PosixPath.resolve_plain cwd filePath
  have hrel : PosixPath.relativeText cwd.names (rooted cwd appRoot places).rootText
      (PosixPath.resolveText cwd.names filePath) =
        PosixPath.joined (PosixPath.relative (PosixPath.resolve cwd.names appRoot)
          (PosixPath.resolve cwd.names filePath)) := by
    unfold PosixPath.relativeText rootText
    rw [PosixPath.resolve_resolveText]
    exact congrArg (fun src => PosixPath.joined (PosixPath.relative src _))
      (PosixPath.resolve_absolute hroot cwd.names)
  have hnames := @route_of_relative (rooted cwd appRoot places) filePath _ rfl
  have htext := routeText_of_relative hrel (PosixPath.outside_text hroot hpath)
  rcases PosixPath.relative_cases (PosixPath.resolve cwd.names appRoot)
    (PosixPath.resolve cwd.names filePath) with ⟨rest, hbelow, hrest⟩ | ⟨hnot, hout⟩
  · have hin : ¬ PosixPath.Outside (PosixPath.relative (PosixPath.resolve cwd.names appRoot)
        (PosixPath.resolve cwd.names filePath)) := fun hout =>
      (PosixPath.outside_relative hpath).mp hout ⟨rest, hbelow.symm⟩
    cases rest with
    | nil =>
        rw [hnames.2.1 hrest, htext.2.1 hrest]
        exact ⟨rfl, Or.inr (Or.inl ⟨hbelow.trans (List.append_nil _), rfl⟩)⟩
    | cons mount names =>
        have hmount : PosixPath.Plain mount := by
          apply hpath mount
          rw [hbelow]
          exact List.mem_append_right _ List.mem_cons_self
        rw [hnames.2.2 mount names hin hrest, htext.2.2 mount names hin hrest hmount]
        exact ⟨rfl, Or.inr (Or.inr ⟨mount, names, hbelow, rfl⟩)⟩
  · rw [hnames.1 hout, htext.1 hout]
    exact ⟨rfl, Or.inl ⟨hnot, rfl⟩⟩

theorem routeText_below {filePath : FilePath} {mount : PosixPath.Text}
    {names : List PosixPath.Text} (h : PosixPath.resolve cwd.names filePath =
      PosixPath.resolve cwd.names appRoot ++ mount :: names) :
    (rooted cwd appRoot places).routeText filePath =
      (rooted cwd appRoot places).below mount names := by
  rcases (routeText_cases cwd appRoot places filePath).2 with hout | hroot | hbelow
  · exact absurd ⟨mount :: names, h.symm⟩ hout.1
  · rw [hroot.1] at h
    cases List.self_eq_append_right.mp h
  · rcases hbelow with ⟨mount', names', heq, hroute⟩
    rw [h] at heq
    rw [hroute, (List.cons.inj (List.append_cancel_left heq)).1,
      (List.cons.inj (List.append_cancel_left heq)).2]

theorem below_inside (registry : PlaceRegistry) (mount : PosixPath.Text)
    (names : List PosixPath.Text) :
    registry.below mount names ≠ Territory.outside ∧
      registry.below mount names ≠ Territory.appRoot := by
  unfold below
  cases registry.get mount with
  | none => exact ⟨fun h => (by cases h), fun h => (by cases h)⟩
  | some place => exact ⟨fun h => (by cases h), fun h => (by cases h)⟩

theorem routeText_outside (filePath : FilePath) :
    (rooted cwd appRoot places).routeText filePath = Territory.outside <->
      ¬ PosixPath.resolve cwd.names appRoot <+: PosixPath.resolve cwd.names filePath := by
  constructor
  · intro hroute hprefix
    rcases (routeText_cases cwd appRoot places filePath).2 with
      hout | hroot | ⟨mount, names, _, hbelow⟩
    · exact hout.1 hprefix
    · rw [hroute] at hroot
      cases hroot.2
    · rw [hroute] at hbelow
      exact (below_inside _ mount names).1 hbelow.symm
  · intro hnot
    rcases (routeText_cases cwd appRoot places filePath).2 with
      hout | hroot | ⟨mount, names, heq, _⟩
    · exact hout.2
    · rw [hroot.1] at hnot
      exact absurd (List.prefix_refl _) hnot
    · exact absurd ⟨mount :: names, heq.symm⟩ hnot

theorem routeText_appRoot (filePath : FilePath) :
    (rooted cwd appRoot places).routeText filePath = Territory.appRoot <->
      PosixPath.resolve cwd.names filePath = PosixPath.resolve cwd.names appRoot := by
  constructor
  · intro hroute
    rcases (routeText_cases cwd appRoot places filePath).2 with
      hout | hroot | ⟨mount, names, _, hbelow⟩
    · rw [hroute] at hout
      cases hout.2
    · exact hroot.1
    · rw [hroute] at hbelow
      exact absurd hbelow.symm (below_inside _ mount names).2
  · intro heq
    rcases (routeText_cases cwd appRoot places filePath).2 with
      hout | hroot | ⟨mount, names, hbelow, _⟩
    · rw [heq] at hout
      exact absurd (List.prefix_refl _) hout.1
    · exact hroot.2
    · rw [hbelow] at heq
      cases List.append_right_eq_self.mp heq

theorem enclosesText_iff (filePath : FilePath) :
    (rooted cwd appRoot places).enclosesText filePath = true <->
      PosixPath.resolve cwd.names filePath <+: PosixPath.resolve cwd.names appRoot := by
  have hroot := PosixPath.resolve_plain cwd appRoot
  have hpath := PosixPath.resolve_plain cwd filePath
  have hrel : PosixPath.relativeText cwd.names (PosixPath.resolveText cwd.names filePath)
      (rooted cwd appRoot places).rootText =
        PosixPath.joined (PosixPath.relative (PosixPath.resolve cwd.names filePath)
          (PosixPath.resolve cwd.names appRoot)) := by
    unfold PosixPath.relativeText rootText
    rw [PosixPath.resolve_resolveText]
    exact congrArg (fun target => PosixPath.joined (PosixPath.relative _ target))
      (PosixPath.resolve_absolute hroot cwd.names)
  have hout := PosixPath.outside_text hpath hroot
  have hiff := @PosixPath.outside_relative (PosixPath.resolve cwd.names filePath) _ hroot
  unfold enclosesText
  show (decide (PosixPath.relativeText cwd.names (PosixPath.resolveText cwd.names filePath)
    (rooted cwd appRoot places).rootText = []) ||
      !PosixPath.outside (PosixPath.relativeText cwd.names
        (PosixPath.resolveText cwd.names filePath) (rooted cwd appRoot places).rootText)) =
          true <-> _
  rw [hrel, Bool.or_eq_true, decide_eq_true_iff, Bool.not_eq_true', Bool.eq_false_iff, Ne, hout,
    hiff, not_not]
  constructor
  · intro hor
    rcases hor with hnil | hprefix
    · by_contra hnot
      have hclimbs := hout.mpr (hiff.mpr hnot)
      rw [hnil] at hclimbs
      cases hclimbs
    · exact hprefix
  · exact Or.inr

/-!
# The paths of keys
-/

/-- Where the path of a canonical key leads: into the place, by the names of the key. -/
theorem resolve_pathOf (cwd : PosixPath.WorkingDir) {appRoot : FilePath} {place : RoutedPlace}
    {key canonical : Key} (habs : appRoot.head? = some PosixPath.separator)
    (hname : validateName place.config.name.toList = true)
    (hkey : PlaceFiles.canonicalKey key = some canonical) :
    exists names, names ≠ [] ∧ canonical = PosixPath.text names ∧
      PosixPath.resolve cwd.names (place.root appRoot) =
        PosixPath.resolve cwd.names appRoot ++ [place.config.name.toList] ∧
      PosixPath.resolve cwd.names (place.pathOf appRoot key) =
        PosixPath.resolve cwd.names (place.root appRoot) ++ names := by
  have hmount := validateName_plain hname
  have hnames : forall name, name ∈ PosixPath.resolve cwd.names appRoot ++
      [place.config.name.toList] -> PosixPath.Plain name := by
    intro name hmem
    rcases List.mem_append.mp hmem with hroot | hlast
    · exact PosixPath.resolve_plain cwd appRoot name hroot
    · rw [List.mem_singleton.mp hlast]
      exact hmount
  have hroot : place.root appRoot = PosixPath.text (PosixPath.resolve cwd.names appRoot ++
      [place.config.name.toList]) := by
    apply PosixPath.join_below cwd.names habs
    · intro name hmem
      rw [List.mem_singleton.mp hmem]
      exact hmount
    · exact List.cons_ne_nil _ _
    · exact Or.inr (List.append_nil _).symm
  have hleads : PosixPath.resolve cwd.names (place.root appRoot) =
      PosixPath.resolve cwd.names appRoot ++ [place.config.name.toList] := by
    rw [hroot]
    exact PosixPath.resolve_text hnames (List.append_ne_nil_of_right_ne_nil _
      (List.cons_ne_nil _ _)) cwd.names
  rcases PlaceFiles.canonicalKey_names hkey with ⟨names, hne, hplain, hcanonical, htext⟩
  have hlast : (PosixPath.text names).getLast? ≠ some PosixPath.separator :=
    PosixPath.getLast_text hne hplain
  have hinner : ¬ (key = [] ∨ key = [slash]) := by
    intro hor
    rcases htext with heq | heq
    · rw [← heq] at hlast
      rcases hor with hnil | hslash
      · rw [hnil] at heq
        cases names with
        | nil => exact hne rfl
        | cons name rest => cases heq
      · rw [hslash] at hlast
        exact hlast rfl
    · rw [← heq] at hlast
      rcases hor with hnil | hslash
      · rw [hnil] at hlast
        exact hlast rfl
      · rw [hslash] at hlast
        exact hlast rfl
  have habove : (place.root appRoot).head? = some PosixPath.separator := by
    rw [hroot]
    cases PosixPath.resolve cwd.names appRoot with
    | nil => rfl
    | cons first rest => rfl
  have hpath : place.pathOf appRoot key =
      PosixPath.text (PosixPath.resolve cwd.names (place.root appRoot) ++ names) := by
    unfold RoutedPlace.pathOf
    rw [if_neg hinner]
    exact PosixPath.join_below cwd.names habove hplain hne htext
  refine ⟨names, hne, hcanonical, hleads, ?_⟩
  rw [hpath]
  apply PosixPath.resolve_text
  · intro name hmem
    rcases List.mem_append.mp hmem with hdir | hbelow
    · rw [hleads] at hdir
      exact hnames name hdir
    · exact hplain name hbelow
  · exact List.append_ne_nil_of_right_ne_nil _ hne

/-- The path of a canonical key is routed back to the place and the key. -/
theorem routeText_pathOf (cwd : PosixPath.WorkingDir) {appRoot : FilePath}
    {places : List RoutedPlace} {place : RoutedPlace} {key canonical : Key}
    (habs : appRoot.head? = some PosixPath.separator)
    (hget : (rooted cwd appRoot places).get place.config.name.toList = some place)
    (hname : validateName place.config.name.toList = true)
    (hkey : PlaceFiles.canonicalKey key = some canonical) :
    (rooted cwd appRoot places).routeText (place.pathOf appRoot key) =
      Territory.owned place canonical := by
  rcases resolve_pathOf cwd habs hname hkey with ⟨names, _, hcanonical, hroot, hpath⟩
  rw [hroot, List.append_assoc] at hpath
  rw [routeText_below hpath]
  unfold below
  rw [hget, hcanonical]
  rfl

/-!
# Routing is exact
-/

/-- A registered place under a name the configuration accepts. -/
def Registered (registry : PlaceRegistry) (place : RoutedPlace) : Prop :=
  registry.get place.config.name.toList = some place ∧
    validateName place.config.name.toList = true

theorem routing_exact (cwd : PosixPath.WorkingDir) (appRoot : FilePath)
    (places : List RoutedPlace) (habs : appRoot.head? = some PosixPath.separator) :
    (forall filePath,
      ((rooted cwd appRoot places).routeText filePath = Territory.outside <->
        ¬ PosixPath.resolve cwd.names appRoot <+: PosixPath.resolve cwd.names filePath) ∧
      ((rooted cwd appRoot places).routeText filePath = Territory.appRoot <->
        PosixPath.resolve cwd.names filePath = PosixPath.resolve cwd.names appRoot) ∧
      (forall mount names, PosixPath.resolve cwd.names filePath =
          PosixPath.resolve cwd.names appRoot ++ mount :: names ->
        (rooted cwd appRoot places).routeText filePath =
          ((rooted cwd appRoot places).get mount).elim Territory.unmanaged
            (fun place => Territory.owned place (PosixPath.text names))) ∧
      ((rooted cwd appRoot places).enclosesText filePath = true <->
        PosixPath.resolve cwd.names filePath <+: PosixPath.resolve cwd.names appRoot)) ∧
    (forall place key canonical, Registered (rooted cwd appRoot places) place ->
      PlaceFiles.canonicalKey key = some canonical ->
      (exists names, names ≠ [] ∧
        PosixPath.resolve cwd.names (place.pathOf appRoot key) =
          PosixPath.resolve cwd.names (place.root appRoot) ++ names) ∧
      (rooted cwd appRoot places).routeText (place.pathOf appRoot key) =
        Territory.owned place canonical) ∧
    (forall place key canonical place' key' canonical',
      Registered (rooted cwd appRoot places) place ->
      Registered (rooted cwd appRoot places) place' ->
      PlaceFiles.canonicalKey key = some canonical ->
      PlaceFiles.canonicalKey key' = some canonical' ->
      place.pathOf appRoot key = place'.pathOf appRoot key' ->
      place = place' ∧ canonical = canonical') := by
  constructor
  · intro filePath
    exact ⟨routeText_outside filePath, routeText_appRoot filePath,
      fun mount names h => routeText_below h, enclosesText_iff filePath⟩
  · constructor
    · intro place key canonical hplace hkey
      rcases resolve_pathOf cwd habs hplace.2 hkey with ⟨names, hne, _, _, hpath⟩
      exact ⟨⟨names, hne, hpath⟩, routeText_pathOf cwd habs hplace.1 hplace.2 hkey⟩
    · intro place key canonical place' key' canonical' hplace hplace' hkey hkey' heq
      have hroute := routeText_pathOf cwd habs hplace.1 hplace.2 hkey
      rw [heq, routeText_pathOf cwd habs hplace'.1 hplace'.2 hkey'] at hroute
      exact ⟨(Territory.owned.inj hroute).1.symm, (Territory.owned.inj hroute).2.symm⟩

/-- A place on disk. -/
def api : RoutedPlace :=
  { config := { name := "api", maxFileSize := 1024, require := none, fs := none, prepare := [] }
    provider := Provider.disk
    origin := some Origin.disk
    writable := false
    fallback := none
    scanExt := none
    files := PlaceFiles.empty
    sync := true
    originated := disk_originated Provider.disk }

def srvApp : FilePath := "/srv/app".toList

def atRoot : PosixPath.WorkingDir := ⟨[], fun _ hname => absurd hname List.not_mem_nil⟩

/-- A name that only begins with a double dot stays in the place. -/
theorem routing_exact_api :
    (rooted atRoot srvApp [api]).routeText "/srv/app/api/..private/file.js".toList =
        Territory.owned api "/..private/file.js".toList ∧
      (rooted atRoot srvApp [api]).routeText (api.pathOf srvApp "lib/x.js".toList) =
        Territory.owned api "/lib/x.js".toList := by
  constructor
  · exact ((routing_exact atRoot srvApp [api] rfl).1 _).2.2.1 "api".toList
      ["..private".toList, "file.js".toList] (by decide +kernel)
  · exact ((routing_exact atRoot srvApp [api] rfl).2.1 api _ _
      ⟨rfl, by decide +kernel⟩ (by decide +kernel)).2

end PlaceRegistry

end SharedMemoryFs
