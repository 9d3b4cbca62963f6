import SharedMemoryFs.Foundation.PosixPath

/-!
# Paths as text

The answers of {lit}`path.resolve`, {lit}`path.relative` and {lit}`path.join` are
text.  On resolved paths each says what the names say: the relative text of a path
from a directory begins with the first name below it exactly when the path lies
below, and begins with a double dot as a whole name exactly when it does not.
-/

namespace SharedMemoryFs
namespace Foundation
namespace PosixPath

/-- The directory a process stands in. -/
structure WorkingDir where
  names : List Text
  plain : forall name, name ∈ names -> Plain name

/-- Names with a separator between them. -/
def joined : List Text -> Text
  | [] => []
  | name :: rest => name ++ text rest

/-- The text of an absolute path. -/
def absolute (names : List Text) : Text :=
  if names = [] then [separator] else text names

/-- {lit}`path.resolve` of one argument. -/
def resolveText (cwd : List Text) (path : Text) : Text := absolute (resolve cwd path)

/-- {lit}`path.relative`. -/
def relativeText (cwd : List Text) (src target : Text) : Text :=
  joined (relative (resolve cwd src) (resolve cwd target))

/-- Go through one name of a relative path, which can climb above its start. -/
def climb (dir : List Text) (name : Text) : List Text :=
  if name = [] ∨ name = dot then dir
  else if name = up ∧ dir.getLast?.any (fun last => last != up) then dir.dropLast
  else dir ++ [name]

/-- A separator at the end stays, one alone is the root. -/
def trailing (path : Text) : Text :=
  if path.getLast? = some separator then [separator] else []

/-- {lit}`path.normalize`. -/
def normalize (path : Text) : Text :=
  if path.head? = some separator then
    let names := (split path).foldl enter []
    if names = [] then [separator] else text names ++ trailing path
  else
    let names := (split path).foldl climb []
    (if names = [] then dot else joined names) ++ trailing path

/-- {lit}`path.join` of two arguments. -/
def join (first second : Text) : Text :=
  if first = [] then normalize second
  else if second = [] then normalize first
  else normalize (first ++ separator :: second)

/-!
# Resolved names
-/

theorem split_separator {path name : Text} (h : name ∈ split path) : separator ∉ name := by
  induction path generalizing name with
  | nil =>
      rw [List.mem_singleton.mp h]
      exact List.not_mem_nil
  | cons c rest ih =>
      by_cases hc : c = separator
      · have hsplit : split (c :: rest) = [] :: split rest := if_pos hc
        rw [hsplit] at h
        rcases List.mem_cons.mp h with heq | hmem
        · rw [heq]
          exact List.not_mem_nil
        · exact ih hmem
      · rcases split_cons_ne hc rest with ⟨first, names, hrest, hsplit⟩
        rw [hsplit] at h
        rcases List.mem_cons.mp h with heq | hmem
        · rw [heq]
          intro hsep
          rcases List.mem_cons.mp hsep with hhead | htail
          · exact hc hhead.symm
          · have hfirst : first ∈ split rest := by
              rw [hrest]
              exact List.mem_cons_self
            exact ih hfirst htail
        · have htail : name ∈ split rest := by
            rw [hrest]
            exact List.mem_cons_of_mem first hmem
          exact ih htail

/-- The names between the separators, each behind one again. -/
theorem text_split (path : Text) : text (split path) = separator :: path := by
  induction path with
  | nil => rfl
  | cons c rest ih =>
      by_cases hc : c = separator
      · have hsplit : split (c :: rest) = [] :: split rest := if_pos hc
        rw [hsplit]
        show separator :: text (split rest) = _
        rw [ih, hc]
      · rcases split_cons_ne hc rest with ⟨first, names, hrest, hsplit⟩
        rw [hrest] at ih
        have htail : first ++ text names = rest := (List.cons.inj ih).2
        rw [hsplit]
        show separator :: c :: (first ++ text names) = _
        rw [htail]

theorem enter_keeps {dir : List Text} {name : Text} (h : separator ∉ name)
    (hdir : forall n, n ∈ dir -> Plain n) : forall n, n ∈ enter dir name -> Plain n := by
  unfold enter
  intro n hn
  by_cases hskip : name = [] ∨ name = dot
  · rw [if_pos hskip] at hn
    exact hdir n hn
  · rw [if_neg hskip] at hn
    by_cases hup : name = up
    · rw [if_pos hup] at hn
      exact hdir n (List.mem_of_mem_dropLast hn)
    · rw [if_neg hup] at hn
      rcases List.mem_append.mp hn with hold | hnew
      · exact hdir n hold
      · rw [List.mem_singleton.mp hnew]
        exact ⟨fun heq => hskip (Or.inl heq), fun heq => hskip (Or.inr heq), hup, h⟩

theorem foldl_enter_keeps {names dir : List Text} (h : forall n, n ∈ names -> separator ∉ n)
    (hdir : forall n, n ∈ dir -> Plain n) :
    forall n, n ∈ names.foldl enter dir -> Plain n := by
  induction names generalizing dir with
  | nil => exact hdir
  | cons name rest ih =>
      exact ih (fun n hn => h n (List.mem_cons_of_mem name hn))
        (enter_keeps (h name List.mem_cons_self) hdir)

/-- A resolved path goes through plain names only. -/
theorem resolve_plain (cwd : WorkingDir) (path : Text) :
    forall n, n ∈ resolve cwd.names path -> Plain n := by
  unfold resolve
  apply foldl_enter_keeps (fun n hn => split_separator hn)
  by_cases habs : path.head? = some separator
  · rw [if_pos habs]
    intro n hn
    cases hn
  · rw [if_neg habs]
    exact cwd.plain

theorem resolve_absolute {names : List Text} (h : forall name, name ∈ names -> Plain name)
    (cwd : List Text) : resolve cwd (absolute names) = names := by
  unfold absolute
  by_cases hne : names = []
  · rw [if_pos hne, hne]
    rfl
  · rw [if_neg hne]
    exact resolve_text h hne cwd

/-- Resolving what is resolved changes nothing. -/
theorem resolve_resolveText (cwd : WorkingDir) (path : Text) :
    resolve cwd.names (resolveText cwd.names path) = resolve cwd.names path :=
  resolve_absolute (resolve_plain cwd path) cwd.names

/-!
# Relative paths
-/

/-- Below the directory the relative path is what remains; elsewhere it climbs. -/
theorem relative_cases (dir path : List Text) :
    (exists rest, path = dir ++ rest ∧ relative dir path = rest) ∨
      (¬ dir <+: path ∧ Outside (relative dir path)) := by
  induction dir generalizing path with
  | nil => exact Or.inl ⟨path, rfl, rfl⟩
  | cons name tail ih =>
      cases path with
      | nil =>
          right
          constructor
          · intro hprefix
            cases List.prefix_nil.mp hprefix
          · rfl
      | cons first rest =>
          by_cases heq : name = first
          · have hrel : relative (name :: tail) (first :: rest) = relative tail rest :=
              if_pos heq
            rw [hrel, heq]
            rcases ih rest with ⟨below, hpath, hbelow⟩ | ⟨hnot, hout⟩
            · left
              exact ⟨below, by rw [hpath]; rfl, hbelow⟩
            · right
              constructor
              · intro hprefix
                exact hnot ((List.cons_prefix_cons.mp hprefix).2)
              · exact hout
          · right
            constructor
            · intro hprefix
              exact heq ((List.cons_prefix_cons.mp hprefix).1)
            · have hrel : relative (name :: tail) (first :: rest) =
                  List.replicate (tail.length + 1) up ++ first :: rest := if_neg heq
              rw [hrel]
              rfl

/-- A path of plain names climbs out of a directory exactly when it is not below. -/
theorem outside_relative {dir path : List Text} (h : forall name, name ∈ path -> Plain name) :
    Outside (relative dir path) <-> ¬ dir <+: path := by
  rcases relative_cases dir path with ⟨rest, hpath, hrel⟩ | ⟨hnot, hout⟩
  · rw [hrel]
    constructor
    · intro hhead
      have hmem : up ∈ path := by
        rw [hpath]
        exact List.mem_append_right dir (List.mem_of_head? hhead)
      exact absurd rfl (h up hmem).2.2.1
    · intro hnot
      exact absurd ⟨rest, hpath.symm⟩ hnot
  · exact ⟨fun _ => hnot, fun _ => hout⟩

/-!
# The text of a relative path
-/

theorem takeWhile_joined {name : Text} (h : separator ∉ name) (rest : List Text) :
    (joined (name :: rest)).takeWhile (fun c => c != separator) = name := by
  have hname : forall c, c ∈ name -> (c != separator) = true := by
    intro c hc
    rw [bne_iff_ne]
    intro heq
    rw [heq] at hc
    exact h hc
  show (name ++ text rest).takeWhile _ = name
  rw [List.takeWhile_append_of_pos hname]
  cases rest with
  | nil => exact List.append_nil name
  | cons next tail => exact List.append_nil name

theorem dropWhile_joined {name : Text} (h : separator ∉ name) (rest : List Text) :
    (joined (name :: rest)).dropWhile (fun c => c != separator) = text rest := by
  have hname : forall c, c ∈ name -> (c != separator) = true := by
    intro c hc
    rw [bne_iff_ne]
    intro heq
    rw [heq] at hc
    exact h hc
  show (name ++ text rest).dropWhile _ = text rest
  rw [List.dropWhile_append_of_pos hname]
  cases rest with
  | nil => rfl
  | cons next tail => rfl

/-- The text is a double dot or goes on behind one, or is absolute. -/
def outside (rel : Text) : Bool :=
  decide (rel = up) || (up ++ [separator]).isPrefixOf rel || decide (rel.head? = some separator)

/-- Only a double dot that is a whole name leads out. -/
theorem outside_joined {name : Text} (hne : name ≠ []) (h : separator ∉ name)
    (rest : List Text) : outside (joined (name :: rest)) = true <-> name = up := by
  have htake := takeWhile_joined h rest
  constructor
  · intro hout
    rw [outside, Bool.or_eq_true, Bool.or_eq_true, decide_eq_true_iff,
      List.isPrefixOf_iff_prefix, decide_eq_true_iff] at hout
    rcases hout with (heq | ⟨tail, htail⟩) | hhead
    · rw [heq] at htake
      exact htake.symm
    · rw [← htail] at htake
      exact htake.symm
    · cases name with
      | nil => exact absurd rfl hne
      | cons c cs =>
          have hc : c = separator := Option.some.inj hhead
          rw [hc] at h
          exact absurd List.mem_cons_self h
  · intro heq
    rw [outside, Bool.or_eq_true, Bool.or_eq_true, decide_eq_true_iff,
      List.isPrefixOf_iff_prefix]
    left
    rw [heq]
    cases rest with
    | nil => exact Or.inl rfl
    | cons next tail => exact Or.inr ⟨next ++ text tail, rfl⟩

/-- What a relative text says agrees with what its names say. -/
theorem outside_text {dir path : List Text} (hdir : forall name, name ∈ dir -> Plain name)
    (h : forall name, name ∈ path -> Plain name) :
    outside (joined (relative dir path)) = true <-> Outside (relative dir path) := by
  have hnames : forall name, name ∈ relative dir path -> name ≠ [] ∧ separator ∉ name := by
    clear hdir
    induction dir generalizing path with
    | nil => exact fun name hname => ⟨(h name hname).1, (h name hname).2.2.2⟩
    | cons first tail ih =>
        have hup : up ≠ [] ∧ separator ∉ up := by decide
        cases path with
        | nil =>
            intro name hname
            rw [List.eq_of_mem_replicate hname]
            exact hup
        | cons next rest =>
            by_cases heq : first = next
            · have hrel : relative (first :: tail) (next :: rest) = relative tail rest :=
                if_pos heq
              rw [hrel]
              exact ih (fun name hname => h name (List.mem_cons_of_mem next hname))
            · have hrel : relative (first :: tail) (next :: rest) =
                  List.replicate (tail.length + 1) up ++ next :: rest := if_neg heq
              rw [hrel]
              intro name hname
              rcases List.mem_append.mp hname with hclimb | hbelow
              · rw [List.eq_of_mem_replicate hclimb]
                exact hup
              · exact ⟨(h name hbelow).1, (h name hbelow).2.2.2⟩
  unfold Outside
  cases hrel : relative dir path with
  | nil => exact ⟨fun hout => (by cases hout), fun hhead => (by cases hhead)⟩
  | cons name rest =>
      have hname := hnames name (by rw [hrel]; exact List.mem_cons_self)
      rw [outside_joined hname.1 hname.2 rest]
      exact ⟨fun heq => congrArg some heq, fun hhead => Option.some.inj hhead⟩

/-!
# Joining below a directory
-/

/-- Names joined to a directory are entered from where it leads. -/
theorem join_below {dir below : Text} {names : List Text} (cwd : List Text)
    (habs : dir.head? = some separator) (hnames : forall name, name ∈ names -> Plain name)
    (hne : names ≠ []) (h : below = text names ∨ separator :: below = text names) :
    join dir below = text (resolve cwd dir ++ names) := by
  have hdir : dir ≠ [] := by
    intro heq
    rw [heq] at habs
    cases habs
  have hlast : (text names).getLast? ≠ some separator := getLast_text hne hnames
  have hbelow : below ≠ [] := by
    intro heq
    rw [heq] at h
    rcases h with hnil | hsep
    · cases names with
      | nil => exact hne rfl
      | cons name rest => cases hnil
    · rw [← hsep] at hlast
      exact hlast rfl
  have hend : below.getLast? = (text names).getLast? := by
    rcases h with heq | heq
    · rw [heq]
    · rw [← heq]
      exact (List.getLast?_append_of_ne_nil [separator] hbelow).symm
  have hsplit : split (text names) = [] :: names :=
    split_text (fun name hname => (hnames name hname).2.2.2)
  have hfold : forall start : List Text, (split below).foldl enter start = start ++ names := by
    intro start
    rcases h with heq | heq
    · rw [heq, hsplit]
      exact foldl_enter hnames start
    · rw [← heq, show split (separator :: below) = [] :: split below from if_pos rfl] at hsplit
      rw [(List.cons.inj hsplit).2]
      exact foldl_enter hnames start
  have hhead : (dir ++ separator :: below).head? = some separator := by
    cases dir with
    | nil => exact absurd rfl hdir
    | cons c rest => exact habs
  have hresolve : (split dir).foldl enter [] = resolve cwd dir := by
    unfold resolve
    rw [if_pos habs]
  have htrailing : trailing (dir ++ separator :: below) = [] := by
    unfold trailing
    rw [List.getLast?_append_of_ne_nil dir (List.cons_ne_nil _ _),
      List.getLast?_cons_of_ne_nil hbelow, hend, if_neg hlast]
  unfold join
  rw [if_neg hdir, if_neg hbelow]
  unfold normalize
  rw [if_pos hhead, split_append_separator, List.foldl_append, hfold, hresolve, htrailing]
  have hsome : resolve cwd dir ++ names ≠ [] := fun hnil =>
    hne (List.append_eq_nil_iff.mp hnil).2
  exact (if_neg hsome).trans (List.append_nil _)

/-- Names entered come from the directory or from the path. -/
theorem mem_foldl_enter {names dir : List Text} {name : Text}
    (h : name ∈ names.foldl enter dir) : name ∈ dir ∨ name ∈ names := by
  induction names generalizing dir with
  | nil => exact Or.inl h
  | cons first rest ih =>
      rcases ih h with hdir | hrest
      · unfold enter at hdir
        by_cases hskip : first = [] ∨ first = dot
        · rw [if_pos hskip] at hdir
          exact Or.inl hdir
        · rw [if_neg hskip] at hdir
          by_cases hup : first = up
          · rw [if_pos hup] at hdir
            exact Or.inl (List.mem_of_mem_dropLast hdir)
          · rw [if_neg hup] at hdir
            rcases List.mem_append.mp hdir with hold | hnew
            · exact Or.inl hold
            · right
              rw [List.mem_singleton.mp hnew]
              exact List.mem_cons_self
      · exact Or.inr (List.mem_cons_of_mem first hrest)

theorem mem_text {c : Char} {names : List Text} (h : c ∈ text names) :
    c = separator ∨ exists name, name ∈ names ∧ c ∈ name := by
  rcases List.mem_flatMap.mp h with ⟨name, hname, hc⟩
  rcases List.mem_cons.mp hc with heq | hmem
  · exact Or.inl heq
  · exact Or.inr ⟨name, hname, hmem⟩

theorem mem_of_mem_split {path name : Text} (hname : name ∈ split path) {c : Char}
    (hc : c ∈ name) : c ∈ path := by
  have hmem : c ∈ text (split path) :=
    List.mem_flatMap.mpr ⟨name, hname, List.mem_cons_of_mem separator hc⟩
  rw [text_split] at hmem
  rcases List.mem_cons.mp hmem with heq | hpath
  · rw [heq] at hc
    exact absurd hc (split_separator hname)
  · exact hpath

/-- Joining any text to a directory enters its names and keeps a separator at the end. -/
theorem join_text {names : List Text} (hnames : forall name, name ∈ names -> Plain name)
    (hne : names ≠ []) (path : Text) :
    join (text names) path =
      if (split path).foldl enter names = [] then [separator]
      else text ((split path).foldl enter names) ++ trailing path := by
  have hdir : text names ≠ [] := by
    intro hnil
    cases names with
    | nil => exact hne rfl
    | cons name rest => cases hnil
  have hhead : (text names).head? = some separator := by
    cases names with
    | nil => exact absurd rfl hne
    | cons name rest => rfl
  have hsplit : (split (text names)).foldl enter [] = names := by
    rw [split_text (fun name hname => (hnames name hname).2.2.2), List.foldl_cons]
    exact (foldl_enter hnames []).trans (List.nil_append names)
  unfold join
  rw [if_neg hdir]
  by_cases hpath : path = []
  · have hlast : trailing (text names) = [] := if_neg (getLast_text hne hnames)
    rw [if_pos hpath, hpath, normalize, if_pos hhead, hsplit, hlast]
    rfl
  · have hhead' : (text names ++ separator :: path).head? = some separator := by
      cases names with
      | nil => exact absurd rfl hne
      | cons name rest => rfl
    have htrailing : trailing (text names ++ separator :: path) = trailing path := by
      unfold trailing
      rw [List.getLast?_append_of_ne_nil (text names) (List.cons_ne_nil _ _),
        List.getLast?_cons_of_ne_nil hpath]
    rw [if_neg hpath, normalize, if_pos hhead', split_append_separator, List.foldl_append,
      hsplit, htrailing]

/-- A separator at the end of a path changes nothing of where it leads. -/
theorem resolve_trailing {names : List Text} (hnames : forall name, name ∈ names -> Plain name)
    (hne : names ≠ []) (cwd : List Text) (path : Text) :
    resolve cwd (text names ++ trailing path) = names := by
  unfold trailing
  by_cases hlast : path.getLast? = some separator
  · rw [if_pos hlast]
    have hhead : (text names ++ [separator]).head? = some separator := by
      cases names with
      | nil => exact absurd rfl hne
      | cons name rest => rfl
    unfold resolve
    rw [if_pos hhead, split_append_separator, List.foldl_append,
      split_text (fun name hname => (hnames name hname).2.2.2), List.foldl_cons]
    have hfold : names.foldl enter (enter [] []) = names :=
      (foldl_enter hnames []).trans (List.nil_append names)
    rw [hfold]
    rfl
  · rw [if_neg hlast, List.append_nil]
    exact resolve_text hnames hne cwd

end PosixPath
end Foundation
end SharedMemoryFs
