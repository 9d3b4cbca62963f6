import SharedMemoryFs.Places.Place
import SharedMemoryFs.Places.PlaceFiles

/-!
# Extensions

The extension of a key as the library of the repository computes it: the lowercased
text behind the last dot, empty when a slash comes later.
-/

namespace SharedMemoryFs

/-- What stands behind the last {lit}`c`, all of the text when there is none. -/
def afterLast (c : Char) (text : Key) : Key := text.rtakeWhile (fun d => d != c)

namespace Metautil

/-- {lit}`fileExt`. -/
def fileExt (key : Key) : Ext :=
  if slash ∈ afterLast '.' key then "" else String.ofList ((afterLast '.' key).map Char.toLower)

end Metautil

theorem takeWhile_append_stop {alpha : Type} {p : alpha -> Bool} {xs : List alpha} {x : alpha}
    (hmem : x ∈ xs) (hx : p x = false) (ys : List alpha) :
    (xs ++ ys).takeWhile p = xs.takeWhile p := by
  induction xs with
  | nil => cases hmem
  | cons y rest ih =>
      rw [List.cons_append, List.takeWhile_cons, List.takeWhile_cons]
      cases hy : p y with
      | false => rfl
      | true =>
          rcases List.mem_cons.mp hmem with heq | hrest
          · rw [← heq, hx] at hy
            cases hy
          · rw [ih hrest]

theorem afterLast_append {c : Char} {text : Key} (h : c ∈ text) (dir : Key) :
    afterLast c (dir ++ text) = afterLast c text := by
  unfold afterLast List.rtakeWhile
  rw [List.reverse_append,
    takeWhile_append_stop (List.mem_reverse.mpr h) (by simp) dir.reverse]

/-- An extension is read off the last name of a key. -/
def NameExt (fileExt : Key -> Ext) : Prop :=
  forall dir dir' name, fileExt (dir ++ slash :: name) = fileExt (dir' ++ slash :: name)

theorem afterLast_of_not_mem {c : Char} {text : Key} (h : c ∉ text) (dir : Key) :
    afterLast c (dir ++ text) = afterLast c dir ++ text := by
  unfold afterLast List.rtakeWhile
  have hall : forall d, d ∈ text.reverse -> (d != c) = true := by
    intro d hd
    rw [bne_iff_ne]
    intro heq
    rw [heq] at hd
    exact h (List.mem_reverse.mp hd)
  rw [List.reverse_append, List.takeWhile_append_of_pos hall, List.reverse_append,
    List.reverse_reverse]

/-- The last name of a key. -/
theorem afterLast_cons {c : Char} {name : Key} (h : c ∉ name) (dir : Key) :
    afterLast c (dir ++ c :: name) = name := by
  have happend : dir ++ c :: name = (dir ++ [c]) ++ name := by
    rw [List.append_assoc]
    rfl
  have hstop : afterLast c (dir ++ [c]) = [] := by
    unfold afterLast List.rtakeWhile
    rw [List.reverse_append, List.reverse_singleton, List.singleton_append,
      List.takeWhile_cons_of_neg (by simp)]
    rfl
  rw [happend, afterLast_of_not_mem h, hstop, List.nil_append]

theorem exists_afterLast {c : Char} {key : Key} (h : c ∈ key) :
    exists dir, key = dir ++ c :: afterLast c key ∧ c ∉ afterLast c key := by
  rcases List.eq_append_cons_of_mem (List.mem_reverse.mpr h) with ⟨name, dir, heq, hname⟩
  have hkey : key = dir.reverse ++ c :: name.reverse := by
    rw [← List.reverse_reverse key, heq, List.reverse_append, List.reverse_cons,
      List.append_assoc]
    rfl
  have hlast : afterLast c key = name.reverse := by
    rw [hkey, afterLast_cons (fun hmem => hname (List.mem_reverse.mp hmem))]
  rw [hlast]
  exact ⟨dir.reverse, hkey, fun hmem => hname (List.mem_reverse.mp hmem)⟩

/-- A name that is dots alone has no extension. -/
theorem fileExt_dots {dir name : Key} (h : name = ['.'] ∨ name = ['.', '.']) :
    Metautil.fileExt (dir ++ slash :: name) = "" := by
  have hlast : afterLast '.' (dir ++ slash :: name) = [] := by
    rcases h with heq | heq
    · have happend : dir ++ slash :: ['.'] = (dir ++ [slash]) ++ '.' :: [] := by
        rw [List.append_assoc]
        rfl
      rw [heq, happend]
      exact afterLast_cons List.not_mem_nil _
    · have happend : dir ++ slash :: ['.', '.'] = (dir ++ [slash, '.']) ++ '.' :: [] := by
        rw [List.append_assoc]
        rfl
      rw [heq, happend]
      exact afterLast_cons List.not_mem_nil _
  unfold Metautil.fileExt
  rw [hlast]
  rfl

theorem fileExt_nameExt : NameExt Metautil.fileExt := by
  intro dir dir' name
  unfold Metautil.fileExt
  by_cases hdot : '.' ∈ slash :: name
  · rw [afterLast_append hdot, afterLast_append hdot]
  · rw [afterLast_of_not_mem hdot, afterLast_of_not_mem hdot,
      if_pos (List.mem_append_right _ List.mem_cons_self),
      if_pos (List.mem_append_right _ List.mem_cons_self)]

end SharedMemoryFs
