import Mathlib

/-!
# Absolute and relative paths

Paths as text and as the names they go through.  Resolving a path drops empty and
dot names and takes a name back at each double dot; the relative path from one
place to another climbs out of what they do not share.
-/

namespace SharedMemoryFs
namespace Foundation
namespace PosixPath

abbrev Text := List Char

def separator : Char := '/'

def dot : Text := ['.']

def up : Text := ['.', '.']

/-- A name that a path can hold as it is. -/
def Plain (name : Text) : Prop :=
  name ≠ [] ∧ name ≠ dot ∧ name ≠ up ∧ separator ∉ name

instance (name : Text) : Decidable (Plain name) :=
  inferInstanceAs (Decidable (_ ∧ _ ∧ _ ∧ _))

/-- The names between the separators of a text. -/
def split : Text -> List Text
  | [] => [[]]
  | c :: rest =>
      if c = separator then [] :: split rest
      else
        match split rest with
        | [] => [[c]]
        | name :: names => (c :: name) :: names

/-- Go through one name. -/
def enter (dir : List Text) (name : Text) : List Text :=
  if name = [] ∨ name = dot then dir
  else if name = up then dir.dropLast
  else dir ++ [name]

/-- {lit}`path.resolve` of one argument, as names. -/
def resolve (cwd : List Text) (path : Text) : List Text :=
  (split path).foldl enter (if path.head? = some separator then [] else cwd)

/-- {lit}`path.relative` between resolved paths, as names. -/
def relative : List Text -> List Text -> List Text
  | [], target => target
  | src, [] => List.replicate src.length up
  | a :: src, b :: target =>
      if a = b then relative src target
      else List.replicate (src.length + 1) up ++ b :: target

/-- A separator before each name. -/
def text (names : List Text) : Text := names.flatMap (fun name => separator :: name)

theorem text_append (names rest : List Text) : text (names ++ rest) = text names ++ text rest :=
  List.flatMap_append

theorem getLast_text {names : List Text} (hne : names ≠ [])
    (h : forall name, name ∈ names -> Plain name) :
    (text names).getLast? ≠ some separator := by
  intro hlast
  rcases List.eq_nil_or_concat names with hnil | ⟨dir, name, heq⟩
  · exact hne hnil
  · rw [List.concat_eq_append] at heq
    have hplain : Plain name := by
      apply h name
      rw [heq]
      exact List.mem_append_right dir List.mem_cons_self
    rw [heq, text_append] at hlast
    have hname : text [name] = separator :: name := List.append_nil _
    rw [hname, List.getLast?_append_of_ne_nil _ (List.cons_ne_nil _ _),
      List.getLast?_cons_of_ne_nil hplain.1] at hlast
    exact hplain.2.2.2 (List.mem_of_getLast? hlast)

theorem split_cons_ne {c : Char} (h : c ≠ separator) (rest : Text) :
    exists name names, split rest = name :: names ∧ split (c :: rest) = (c :: name) :: names := by
  cases hrest : split rest with
  | nil =>
      cases rest with
      | nil => cases hrest
      | cons d tail =>
          unfold split at hrest
          split_ifs at hrest
          cases htail : split tail with
          | nil =>
              rw [htail] at hrest
              cases hrest
          | cons name names =>
              rw [htail] at hrest
              cases hrest
  | cons name names =>
      refine ⟨name, names, rfl, ?_⟩
      show (if c = separator then _ else _) = _
      rw [if_neg h, hrest]

/-- A name without separators goes in front of the first name of what follows. -/
theorem split_append {name : Text} (h : separator ∉ name) (rest : Text) :
    split (name ++ separator :: rest) = name :: split rest := by
  induction name with
  | nil => exact if_pos rfl
  | cons c tail ih =>
      have hc : c ≠ separator := fun heq => h (by rw [heq]; exact List.mem_cons_self)
      rcases split_cons_ne hc (tail ++ separator :: rest) with ⟨first, names, hsplit, heq⟩
      rw [ih (fun hmem => h (List.mem_cons_of_mem c hmem))] at hsplit
      rw [List.cons_append, heq, ← (List.cons.inj hsplit).1, ← (List.cons.inj hsplit).2]

theorem split_ne_nil (path : Text) : split path ≠ [] := by
  cases path with
  | nil => exact List.cons_ne_nil _ _
  | cons c rest =>
      by_cases hc : c = separator
      · rw [hc]
        exact List.cons_ne_nil _ _
      · rcases split_cons_ne hc rest with ⟨name, names, _, heq⟩
        rw [heq]
        exact List.cons_ne_nil _ _

/-- A separator parts the names of what stands before and behind it. -/
theorem split_append_separator (path rest : Text) :
    split (path ++ separator :: rest) = split path ++ split rest := by
  induction path with
  | nil => rfl
  | cons c tail ih =>
      by_cases hc : c = separator
      · rw [hc]
        show [] :: split (tail ++ separator :: rest) = [] :: (split tail ++ split rest)
        rw [ih]
      · rcases split_cons_ne hc tail with ⟨first, names, hsplit, heq⟩
        rcases split_cons_ne hc (tail ++ separator :: rest) with ⟨first', names', hsplit', heq'⟩
        rw [ih, hsplit] at hsplit'
        rw [List.cons_append, heq, heq', ← (List.cons.inj hsplit').1,
          ← (List.cons.inj hsplit').2]
        rfl

theorem split_plain {name : Text} (h : separator ∉ name) : split name = [name] := by
  induction name with
  | nil => rfl
  | cons c tail ih =>
      have hc : c ≠ separator := fun heq => h (by rw [heq]; exact List.mem_cons_self)
      rcases split_cons_ne hc tail with ⟨first, names, hsplit, heq⟩
      rw [ih (fun hmem => h (List.mem_cons_of_mem c hmem))] at hsplit
      rw [heq, ← (List.cons.inj hsplit).1, ← (List.cons.inj hsplit).2]

theorem split_text {names : List Text} (h : forall name, name ∈ names -> separator ∉ name) :
    split (text names) = [] :: names := by
  have hcons : forall {first : Text} {rest : List Text}, separator ∉ first ->
      (forall name, name ∈ rest -> separator ∉ name) ->
      split (first ++ text rest) = first :: rest := by
    intro first rest hfirst hrest
    induction rest generalizing first with
    | nil =>
        rw [show text [] = [] from rfl, List.append_nil]
        exact split_plain hfirst
    | cons second tail ih =>
        show split (first ++ separator :: (second ++ text tail)) = _
        rw [split_append hfirst, ih (hrest second List.mem_cons_self)
          (fun name hname => hrest name (List.mem_cons_of_mem second hname))]
  cases names with
  | nil => rfl
  | cons first rest =>
      show split (separator :: (first ++ text rest)) = _
      have hhead : split (separator :: (first ++ text rest)) = [] :: split (first ++ text rest) :=
        if_pos rfl
      rw [hhead, hcons (h first List.mem_cons_self)
        (fun name hname => h name (List.mem_cons_of_mem first hname))]

theorem foldl_enter {names : List Text} (h : forall name, name ∈ names -> Plain name)
    (dir : List Text) : names.foldl enter dir = dir ++ names := by
  induction names generalizing dir with
  | nil => exact (List.append_nil dir).symm
  | cons name rest ih =>
      rcases h name List.mem_cons_self with ⟨hempty, hdot, hup, _⟩
      have henter : enter dir name = dir ++ [name] := by
        unfold enter
        rw [if_neg (fun hor => hor.elim hempty hdot), if_neg hup]
      rw [List.foldl_cons, henter, ih (fun n hn => h n (List.mem_cons_of_mem name hn)),
        List.append_assoc]
      rfl

/-- The text of plain names resolves to them, wherever one stands. -/
theorem resolve_text {names : List Text} (h : forall name, name ∈ names -> Plain name)
    (hne : names ≠ []) (cwd : List Text) : resolve cwd (text names) = names := by
  have hhead : (text names).head? = some separator := by
    cases names with
    | nil => exact absurd rfl hne
    | cons name rest => rfl
  unfold resolve
  rw [if_pos hhead, split_text (fun name hname => (h name hname).2.2.2), List.foldl_cons]
  exact (foldl_enter h []).trans (List.nil_append names)

theorem relative_append (dir rest : List Text) : relative dir (dir ++ rest) = rest := by
  induction dir with
  | nil => rfl
  | cons name tail ih =>
      show (if name = name then relative tail (tail ++ rest) else _) = _
      rw [if_pos rfl]
      exact ih

/-- The relative path climbs unless it leads downwards. -/
def Outside (rel : List Text) : Prop := rel.head? = some up

instance (rel : List Text) : Decidable (Outside rel) := inferInstanceAs (Decidable (_ = _))

end PosixPath
end Foundation
end SharedMemoryFs
