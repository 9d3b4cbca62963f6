import SharedMemoryFs.Foundation.OrderedMap

/-!
# Keys and entries

A place index maps keys to entries.  Companion keys are internal derivatives
of a source key stored in the same index.  The source spells them
{lit}`<src>\0require:bytecode`, {lit}`<src>\0script:bytecode` and
{lit}`<src>\0fs:<encoding>`; here the two halves are kept apart, which
{lit}`render_injective` justifies for every source key without a NUL.
-/

namespace SharedMemoryFs

open Foundation

abbrev Byte := UInt8

abbrev Bytes := List UInt8

abbrev PlaceName := String

/-- A source key such as {lit}`/a/b.js`, character by character. -/
abbrev Key := List Char

instance instLawfulBEqKey : LawfulBEq Key := List.instLawfulBEq

abbrev Ext := String

/-- A frozen structured-cloneable object, by its serialized form. -/
abbrev Cloneable := String

inductive Encoding where
  | gzip
  | deflate
  | br
  | zstd
deriving DecidableEq, Repr

/-- The two domains whose sources are compiled to V8 cached data. -/
inductive BytecodeDomain where
  | require
  | script
deriving DecidableEq, Repr

inductive Flavor where
  | bytecode (domain : BytecodeDomain)
  | compressed (encoding : Encoding)
deriving DecidableEq, Repr

/-- A key of a place index: a source, or one of its companions. -/
structure EntryKey where
  source : Key
  flavor : Option Flavor
deriving DecidableEq, Repr

namespace EntryKey

def ofSource (key : Key) : EntryKey := ⟨key, none⟩

def isCompanionKey (key : EntryKey) : Bool := key.flavor.isSome

end EntryKey

def bytecodeKey (source : Key) (domain : BytecodeDomain) : EntryKey :=
  ⟨source, some (Flavor.bytecode domain)⟩

def compressedKey (source : Key) (encoding : Encoding) : EntryKey :=
  ⟨source, some (Flavor.compressed encoding)⟩

/-!
# Companion keys as strings
-/

def sep : Char := Char.ofNat 0

def Encoding.name : Encoding -> String
  | Encoding.gzip => "gzip"
  | Encoding.deflate => "deflate"
  | Encoding.br => "br"
  | Encoding.zstd => "zstd"

def BytecodeDomain.name : BytecodeDomain -> String
  | BytecodeDomain.require => "require"
  | BytecodeDomain.script => "script"

def Flavor.tag : Flavor -> List Char
  | Flavor.bytecode domain => (domain.name ++ ":bytecode").toList
  | Flavor.compressed encoding => ("fs:" ++ encoding.name).toList

def EntryKey.render (key : EntryKey) : List Char :=
  match key.flavor with
  | none => key.source
  | some flavor => key.source ++ sep :: flavor.tag

theorem tag_injective {f g : Flavor} (h : f.tag = g.tag) : f = g := by
  revert h
  rcases f with (_ | _) | (_ | _ | _ | _) <;>
    rcases g with (_ | _) | (_ | _ | _ | _) <;> decide

/-- A NUL-free source key and its flavor are read off the rendered key. -/
theorem render_injective {k l : EntryKey} (hk : sep ∉ k.source)
    (hl : sep ∉ l.source) (h : k.render = l.render) : k = l := by
  rcases k with ⟨ks, kf⟩
  rcases l with ⟨ls, lf⟩
  have hsplit : forall {xs ys : Key} {us vs : List Char},
      sep ∉ xs -> sep ∉ ys -> xs ++ sep :: us = ys ++ sep :: vs ->
        xs = ys ∧ us = vs := by
    intro xs
    induction xs with
    | nil =>
        intro ys us vs _ hys heq
        cases ys with
        | nil => exact ⟨rfl, (List.cons.inj heq).2⟩
        | cons y rest => exact absurd (List.cons.inj heq).1 (fun h' => hys (by simp [h']))
    | cons x xs ih =>
        intro ys us vs hxs hys heq
        cases ys with
        | nil => exact absurd (List.cons.inj heq).1 (fun h' => hxs (by simp [h']))
        | cons y rest =>
            have hrest := ih (fun h' => hxs (List.mem_cons_of_mem x h'))
              (fun h' => hys (List.mem_cons_of_mem y h')) (List.cons.inj heq).2
            exact ⟨by rw [(List.cons.inj heq).1, hrest.1], hrest.2⟩
  cases kf with
  | none =>
      cases lf with
      | none => exact congrArg (fun s => EntryKey.mk s none) h
      | some g =>
          have hks : ks = ls ++ sep :: g.tag := h
          exact absurd (by rw [hks]; simp) hk
  | some f =>
      cases lf with
      | none =>
          have hls : ks ++ sep :: f.tag = ls := h
          exact absurd (by rw [← hls]; simp) hl
      | some g =>
          rcases hsplit hk hl h with ⟨hsource, htag⟩
          rw [show ks = ls from hsource, tag_injective htag]

/-!
# Entries
-/

structure Stat where
  size : Nat
  mtimeMs : Nat
  sourceSize : Option Nat := none
  encoding : Option Encoding := none
deriving DecidableEq, Repr

abbrev SegmentId := Nat

/-- The bytes {lit}`offset .. offset + length` of one segment. -/
structure Extent where
  segmentId : SegmentId
  offset : Nat
  length : Nat
deriving DecidableEq, Repr

/-- The extent owns byte {lit}`c.2` of segment {lit}`c.1`. -/
def Extent.Covers (e : Extent) (c : SegmentId × Nat) : Prop :=
  e.segmentId = c.1 ∧ e.offset ≤ c.2 ∧ c.2 < e.offset + e.length

instance (e : Extent) (c : SegmentId × Nat) : Decidable (e.Covers c) :=
  inferInstanceAs (Decidable (_ ∧ _))

inductive EntryKind where
  | shared (segmentId : SegmentId) (offset length : Nat)
  | disk (path : Option String)
deriving DecidableEq, Repr

/-- A file placed in a segment, or left on disk. -/
structure Entry where
  kind : EntryKind
  stat : Stat
  metadata : Option Cloneable
  scriptOptions : Option Cloneable
deriving DecidableEq, Repr

/-- The pool bytes an entry stands for; an empty shared entry has none. -/
def Entry.extent? (entry : Entry) : Option Extent :=
  match entry.kind with
  | EntryKind.shared segmentId offset length =>
      if 0 < length then some ⟨segmentId, offset, length⟩ else none
  | EntryKind.disk _ => none

/-- The extents of an entry as a multiset of at most one. -/
def Entry.extents (entry : Entry) : Multiset Extent :=
  entry.extent?.elim 0 (fun e => {e})

theorem Entry.mem_extents {entry : Entry} {e : Extent} :
    e ∈ entry.extents <-> entry.extent? = some e := by
  unfold Entry.extents
  cases entry.extent? with
  | none => simp
  | some e' => simp [eq_comm]

/-- A file handed to the allocator. -/
structure FileInput where
  data : Option Bytes
  path : Option String
  stat : Stat
  metadata : Option Cloneable := none
  scriptOptions : Option Cloneable := none
deriving DecidableEq, Repr

/-- One key of one place. -/
structure Slot where
  place : PlaceName
  key : EntryKey
deriving DecidableEq, Repr

end SharedMemoryFs
