import SharedMemoryFs.Kernel.Stability

/-!
# Read streams

{lit}`createReadStream` of a shared place: the options it takes, the range they ask
for, and the chunks a stream pushes.  A stream of owned chunks copies the bytes; one
of borrowed chunks pushes views of the shared buffer.
-/

namespace SharedMemoryFs

open Foundation FilesystemCache

/-!
# Options
-/

/-- A value given for a numeric option.  A {lit}`fraction` is any number that is no
integer, the infinite ones included; {lit}`other` is a value of another type, which a
template string may fail to print. -/
inductive OptionValue where
  | undefined
  | null
  | integer (n : Int)
  | fraction
  | nan
  | other (truthy printable : Bool)
deriving DecidableEq, Repr

namespace OptionValue

/-- The operator {lit}`??`. -/
def orElse (value fallback : OptionValue) : OptionValue :=
  match value with
  | undefined => fallback
  | null => fallback
  | value => value

def truthy (value : OptionValue) : Bool :=
  match value with
  | undefined => false
  | null => false
  | integer n => n != 0
  | fraction => true
  | nan => false
  | other truthy _ => truthy

def printable (value : OptionValue) : Bool :=
  match value with
  | other _ printable => printable
  | _ => true

def toInt (value : OptionValue) : Int :=
  match value with
  | integer n => n
  | _ => 0

end OptionValue

def maxSafeInteger : Int := 9007199254740991

def isOffset (value : OptionValue) : Bool :=
  match value with
  | OptionValue.integer n => decide (0 ≤ n) && decide (n ≤ maxSafeInteger)
  | _ => false

inductive StreamEncoding where
  | none
  | known
  | unknown
deriving DecidableEq, Repr

inductive Signal where
  | none
  | live
  | aborted
  | invalid
deriving DecidableEq, Repr

/-- {lit}`zeroCopy` is read for its truth only, once it is given. -/
structure StreamOptions where
  start : OptionValue
  «end» : OptionValue
  encoding : StreamEncoding
  highWaterMark : OptionValue
  signal : Signal
  zeroCopy : Option Bool
deriving DecidableEq, Repr

/-- What {lit}`createReadStream` throws: its own refusals, or what the constructor of
{lit}`Readable` refuses. -/
inductive StreamError where
  | invalidRange (start «end» : OptionValue)
  | outsideFile (start «end» : Int) (size : Nat)
  | cannotPrint
  | notSupported
  | readable
deriving DecidableEq, Repr

def StreamError.isRangeError (error : StreamError) : Bool :=
  match error with
  | invalidRange _ _ => true
  | outsideFile _ _ _ => true
  | _ => false

structure Range where
  start : Int
  «end» : Int
deriving DecidableEq, Repr

/-- The message names both ends, so that one that cannot be printed is a TypeError. -/
def rangeOf (options : StreamOptions) (size : Nat) : Except StreamError Range :=
  let explicit := options.start != OptionValue.undefined || options.end != OptionValue.undefined
  let start := options.start.orElse (OptionValue.integer 0)
  let stop := options.end.orElse (OptionValue.integer (size - 1))
  if !isOffset start || (options.end != OptionValue.undefined && !isOffset stop) then
    if start.printable && stop.printable then
      Except.error (StreamError.invalidRange start stop)
    else Except.error StreamError.cannotPrint
  else if explicit && (decide (start.toInt > stop.toInt) || decide (stop.toInt ≥ size)) then
    Except.error (StreamError.outsideFile start.toInt stop.toInt size)
  else Except.ok { start := start.toInt, «end» := stop.toInt }

def defaultHighWaterMark : Nat := 64 * 1024

/-- {lit}`options.highWaterMark || DEFAULT_HIGH_WATER_MARK`, when {lit}`Readable` takes
it: any integer that is not negative. -/
def highWaterMarkOf (value : OptionValue) : Option Nat :=
  if value.truthy then
    match value with
    | OptionValue.integer n => if 0 ≤ n then some n.toNat else none
    | _ => none
  else some defaultHighWaterMark

/-- {lit}`#borrowed`, for a place with or without {lit}`fs.zeroCopy`. -/
def borrowedOf (placeZeroCopy : Bool) (options : StreamOptions) : Except StreamError Bool :=
  match options.zeroCopy with
  | none => Except.ok placeZeroCopy
  | some false => Except.ok false
  | some true =>
      if placeZeroCopy then Except.ok true else Except.error StreamError.notSupported

/-!
# Streams
-/

/-- The bytes behind the {lit}`data` of a file; a file kept on disk has none. -/
def File.bytes (mem : Memory) (file : File) : Bytes :=
  match file.content.extent? with
  | some e => readBytes mem e
  | none => []

def subarray (data : Bytes) (start stop : Int) : Bytes :=
  (data.take stop.toNat).drop start.toNat

/-- A chunk as it was pushed.  A borrowed one is a view: what it shows later is what
the memory holds then. -/
structure Chunk where
  bytes : Bytes
  view : Option (Int × Int)
deriving DecidableEq, Repr

def Chunk.shows (data : Bytes) (chunk : Chunk) : Bytes :=
  match chunk.view with
  | some (start, stop) => subarray data start stop
  | none => chunk.bytes

/-- {lit}`pushed` and {lit}`released` are histories no function reads: what was pushed,
and whether {lit}`release()` was called. -/
structure VfsReadStream where
  file : File
  range : Range
  highWaterMark : Nat
  borrowed : Bool
  offset : Int
  pushed : List Chunk
  ended : Bool
  destroyed : Bool
  released : Bool
deriving DecidableEq, Repr

namespace VfsReadStream

def new (file : File) (range : Range) (highWaterMark : Nat) (borrowed : Bool) :
    VfsReadStream :=
  { file := file
    range := range
    highWaterMark := highWaterMark
    borrowed := borrowed
    offset := range.start
    pushed := []
    ended := false
    destroyed := false
    released := false }

def chunkTo (data : Bytes) (stream : VfsReadStream) (stop : Int) : Chunk :=
  { bytes := subarray data stream.offset stop
    view := if stream.borrowed then some (stream.offset, stop) else none }

/-- One call of {lit}`read()`, when the memory behind the stream holds {lit}`data`. -/
def read (data : Bytes) (stream : VfsReadStream) : VfsReadStream :=
  if stream.offset > stream.range.end then { stream with ended := true }
  else
    let stop := min (stream.offset + stream.highWaterMark) (stream.range.end + 1)
    { stream with
      pushed := stream.pushed ++ [stream.chunkTo data stop]
      offset := stop }

/-- What ends the lease of the stream. -/
def done (stream : VfsReadStream) : Bool :=
  if stream.borrowed then stream.released else stream.destroyed

end VfsReadStream

/-!
# Ranges
-/

/-- A range of a file: bounds within it, or nothing of an empty file. -/
def Range.Within (range : Range) (size : Nat) : Prop :=
  (0 ≤ range.start ∧ range.start ≤ range.end ∧ range.end < size) ∨
    (size = 0 ∧ range.start = 0 ∧ range.end = -1)

theorem toInt_of_isOffset {value : OptionValue} (h : isOffset value = true) :
    0 ≤ value.toInt ∧ value.toInt ≤ maxSafeInteger := by
  cases value with
  | integer n => simpa [isOffset, OptionValue.toInt] using h
  | undefined => cases h
  | null => cases h
  | fraction => cases h
  | nan => cases h
  | other truthy printable => cases h

theorem isOffset_printable {value : OptionValue} (h : value.printable = false) :
    isOffset value = false := by
  cases value with
  | other truthy printable => rfl
  | undefined => cases h
  | null => cases h
  | integer n => cases h
  | fraction => cases h
  | nan => cases h

theorem rangeOf_within {options : StreamOptions} {size : Nat} {range : Range}
    (h : rangeOf options size = Except.ok range) : range.Within size := by
  unfold rangeOf at h
  simp only at h
  split_ifs at h with hinvalid hprint houtside
  cases h
  rw [Bool.or_eq_true, not_or, Bool.not_eq_true', Bool.not_eq_false] at hinvalid
  have hstart := (toInt_of_isOffset hinvalid.1).1
  rw [Bool.and_eq_true, not_and] at houtside
  unfold Range.Within
  simp only
  cases hexplicit : options.start != OptionValue.undefined ||
      options.end != OptionValue.undefined with
  | true =>
      have hinside := houtside hexplicit
      simp only [Bool.or_eq_true, decide_eq_true_eq, not_or, not_lt, ge_iff_le, not_le] at hinside
      exact Or.inl ⟨hstart, hinside.1, hinside.2⟩
  | false =>
      rw [Bool.or_eq_false_iff, bne_eq_false_iff_eq, bne_eq_false_iff_eq] at hexplicit
      rw [hexplicit.1, hexplicit.2]
      show (_ ≤ (0 : Int) ∧ (0 : Int) ≤ (size : Int) - 1 ∧ (size : Int) - 1 < size) ∨
        (size = 0 ∧ (0 : Int) = 0 ∧ (size : Int) - 1 = -1)
      omega

/-- A refusal is a RangeError, unless it cannot be printed. -/
theorem rangeOf_error {options : StreamOptions} {size : Nat} {error : StreamError}
    (h : rangeOf options size = Except.error error) :
    error.isRangeError = true ∨
      (error = StreamError.cannotPrint ∧
        (options.start.printable = false ∨ options.end.printable = false)) := by
  have hprintable : forall value : OptionValue, forall n,
      (value.orElse (OptionValue.integer n)).printable = value.printable := by
    intro value n
    cases value <;> rfl
  unfold rangeOf at h
  simp only [hprintable] at h
  split_ifs at h with hinvalid hprint houtside
  · cases h
    exact Or.inl rfl
  · cases h
    rw [Bool.and_eq_true, not_and_or, Bool.not_eq_true, Bool.not_eq_true] at hprint
    exact Or.inr ⟨rfl, hprint⟩
  · cases h
    exact Or.inl rfl

/-!
# Chunks
-/

theorem subarray_append (data : Bytes) {a b c : Int} (hab : a ≤ b) (hbc : b ≤ c) :
    subarray data a b ++ subarray data b c = subarray data a c := by
  unfold subarray
  have hab' : a.toNat ≤ b.toNat := by omega
  have hbc' : b.toNat ≤ c.toNat := by omega
  generalize a.toNat = x at *
  generalize b.toNat = y at *
  generalize c.toNat = z at *
  rw [List.drop_take, List.drop_take, List.drop_take]
  have hsplit : z - x = (y - x) + (z - y) := by omega
  rw [hsplit, List.take_add, List.drop_drop]
  have hmid : x + (y - x) = y := by omega
  rw [hmid]

theorem length_subarray {data : Bytes} {a b : Int} (ha : 0 ≤ a) (hab : a ≤ b)
    (hb : b ≤ data.length) : ((subarray data a b).length : Int) = b - a := by
  unfold subarray
  rw [List.length_drop, List.length_take]
  omega

/-- What a stream has pushed of {lit}`version`, the bytes it was created over. -/
structure VfsReadStream.Delivers (stream : VfsReadStream) (version : Bytes) : Prop where
  within : stream.range.Within version.length
  mark : 0 < stream.highWaterMark
  low : stream.range.start ≤ stream.offset
  high : stream.offset ≤ stream.range.end + 1
  pushed : (stream.pushed.map Chunk.bytes).flatten =
    subarray version stream.range.start stream.offset
  chunks : forall chunk, chunk ∈ stream.pushed ->
    0 < chunk.bytes.length ∧ chunk.bytes.length ≤ stream.highWaterMark
  views : forall chunk, chunk ∈ stream.pushed -> chunk.shows version = chunk.bytes
  owned : stream.borrowed = false -> forall chunk, chunk ∈ stream.pushed -> chunk.view = none
  ended : stream.ended = true -> stream.offset = stream.range.end + 1

theorem Range.Within.nonneg {range : Range} {size : Nat} (h : range.Within size) :
    0 ≤ range.start := by
  rcases h with h | h <;> omega

theorem delivers_new {file : File} {range : Range} {highWaterMark : Nat} {version : Bytes}
    (hwithin : range.Within version.length) (hmark : 0 < highWaterMark) (borrowed : Bool) :
    (VfsReadStream.new file range highWaterMark borrowed).Delivers version where
  within := hwithin
  mark := hmark
  low := le_rfl
  high := by
    show range.start ≤ range.end + 1
    rcases hwithin with h | h <;> omega
  pushed := by
    show [] = subarray version range.start range.start
    unfold subarray
    rw [List.drop_take, Nat.sub_self, List.take_zero]
  chunks := fun _ h => by cases h
  views := fun _ h => by cases h
  owned := fun _ _ h => by cases h
  ended := fun h => by cases h

theorem VfsReadStream.chunkTo_shows (stream : VfsReadStream) (version : Bytes) (stop : Int) :
    (stream.chunkTo version stop).shows version = (stream.chunkTo version stop).bytes := by
  unfold chunkTo Chunk.shows
  cases stream.borrowed with
  | true => rfl
  | false => rfl

theorem VfsReadStream.chunkTo_owned (stream : VfsReadStream) (h : stream.borrowed = false)
    (version : Bytes) (stop : Int) : (stream.chunkTo version stop).view = none := by
  unfold chunkTo
  rw [h]
  rfl

/-- The step lemma of the reads: one more chunk, or the end. -/
theorem VfsReadStream.Delivers.read {stream : VfsReadStream} {version : Bytes}
    (h : stream.Delivers version) : (stream.read version).Delivers version := by
  have hnonneg := h.within.nonneg
  have hlow := h.low
  have hhigh := h.high
  unfold VfsReadStream.read
  split_ifs with hend
  · exact
      { within := h.within
        mark := h.mark
        low := hlow
        high := hhigh
        pushed := h.pushed
        chunks := h.chunks
        views := h.views
        owned := h.owned
        ended := fun _ => by
          show stream.offset = stream.range.end + 1
          omega }
  · let stop := min (stream.offset + stream.highWaterMark) (stream.range.end + 1)
    have hmark : (0 : Int) < stream.highWaterMark := by exact_mod_cast h.mark
    have hstop : stream.offset < stop := by omega
    have hle : stop ≤ stream.range.end + 1 := by omega
    have hspan : stop - stream.offset ≤ stream.highWaterMark := by omega
    have hsize : stop ≤ version.length := by
      rcases h.within with hwithin | hwithin <;> omega
    have hlength : ((subarray version stream.offset stop).length : Int) =
        stop - stream.offset := length_subarray (by omega) (le_of_lt hstop) hsize
    let chunk := stream.chunkTo version stop
    have hchunk : 0 < chunk.bytes.length ∧ chunk.bytes.length ≤ stream.highWaterMark := by
      have hbytes : chunk.bytes = subarray version stream.offset stop := rfl
      rw [hbytes]
      omega
    have hmem : forall {c}, c ∈ stream.pushed ++ [chunk] -> c ∈ stream.pushed ∨ c = chunk := by
      intro c hc
      rwa [List.mem_append, List.mem_singleton] at hc
    exact
      { within := h.within
        mark := h.mark
        low := by
          show stream.range.start ≤ stop
          omega
        high := hle
        pushed := by
          show ((stream.pushed ++ [chunk]).map Chunk.bytes).flatten =
            subarray version stream.range.start stop
          rw [List.map_append, List.flatten_append, h.pushed]
          have hlast : ([chunk].map Chunk.bytes).flatten =
              subarray version stream.offset stop := List.append_nil _
          rw [hlast]
          exact subarray_append version hlow (le_of_lt hstop)
        chunks := by
          intro c hc
          rcases hmem hc with hc | hc
          · exact h.chunks c hc
          · rw [hc]
            exact hchunk
        views := by
          intro c hc
          rcases hmem hc with hc | hc
          · exact h.views c hc
          · rw [hc]
            exact stream.chunkTo_shows version stop
        owned := by
          intro hborrowed c hc
          rcases hmem hc with hc | hc
          · exact h.owned hborrowed c hc
          · rw [hc]
            exact stream.chunkTo_owned hborrowed version stop
        ended := by
          intro hended
          have hended : stream.ended = true := hended
          have hoffset := h.ended hended
          omega }

theorem highWaterMarkOf_pos {value : OptionValue} {mark : Nat}
    (h : highWaterMarkOf value = some mark) : 0 < mark := by
  unfold highWaterMarkOf at h
  split_ifs at h with htruthy
  · cases value with
    | integer n =>
        simp only [OptionValue.truthy, bne_iff_ne] at htruthy
        simp only at h
        split_ifs at h
        cases h
        omega
    | undefined => cases h
    | null => cases h
    | fraction => cases h
    | nan => cases h
    | other truthy printable => cases h
  · cases h
    decide

end SharedMemoryFs
