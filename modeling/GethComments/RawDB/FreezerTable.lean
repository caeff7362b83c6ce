import GethComments.Lib.BigEndian
import GethComments.Lib.Records
import Mathlib.Data.UInt

/-!
# Freezer tables

`core/rawdb/freezer_table.go`: a table of blobs in numbered data files, with an index file that has
the end of every item. The first entry of the index has the number of items and of files that were
removed at the tail instead.

A table has the contents of its files; both the index and the head file are written at their ends,
which is where opening and truncating leave them. The operating system does what it is asked to,
apart from the faults that `append` is given. Locks, metrics and closing are left out.
-/

namespace GethComments.Freezer

open GethComments.Records

structure Snappy where
  encode : Bytes → Bytes
  decode : Bytes → Option Bytes

def Snappy.RoundTrips (s : Snappy) : Prop := ∀ b, s.decode (s.encode b) = some b

structure IndexEntry where
  filenum : Nat
  offset : Nat
  deriving DecidableEq, Repr

def indexEntrySize : Nat := 6

namespace IndexEntry

/-- `marshallBinary`: the file number is stored with 16 bits, the offset with 32. -/
def marshallBinary (i : IndexEntry) : Bytes :=
  [UInt8.ofNat (i.filenum / 256), UInt8.ofNat i.filenum, UInt8.ofNat (i.offset / 2 ^ 24),
    UInt8.ofNat (i.offset / 2 ^ 16), UInt8.ofNat (i.offset / 2 ^ 8), UInt8.ofNat i.offset]

def unmarshalBinary (b : Bytes) : IndexEntry := ⟨setBytes (b.take 2), setBytes ((b.drop 2).take 4)⟩

def Fits (i : IndexEntry) : Prop := i.filenum < 2 ^ 16 ∧ i.offset < 2 ^ 32

theorem length_marshallBinary (i : IndexEntry) : i.marshallBinary.length = indexEntrySize := rfl

theorem unmarshalBinary_marshallBinary {i : IndexEntry} (h : i.Fits) :
    unmarshalBinary i.marshallBinary = i := by
  obtain ⟨h1, h2⟩ := h
  have hfile : setBytes (i.marshallBinary.take 2) = i.filenum := by
    simp [marshallBinary, setBytes, Nat.ofDigits_cons]
    omega
  have hoffset : setBytes ((i.marshallBinary.drop 2).take 4) = i.offset := by
    simp [marshallBinary, setBytes, Nat.ofDigits_cons]
    omega
  rw [unmarshalBinary, hfile, hoffset]

end IndexEntry

inductive FreezerError where
  | outOrderInsertion
  | outOfBounds
  | unexpectedItem (want have_ : Nat)
  | missingDataFile (num : Nat)
  /-- A read behind the end of a file. -/
  | eof
  | openFile
  | write
  /-- A file is truncated to a negative size. -/
  | invalidSize
  /-- The compressed data is corrupt. -/
  | decode
  deriving DecidableEq, Repr

structure Table where
  /-- Number of items, including those that were removed at the tail. It is an unsigned 64-bit
  number and never gets near its end: each item has an entry in the index file. -/
  items : Nat
  noCompression : Bool
  maxFileSize : Nat
  /-- The data files that are open. -/
  files : List Nat
  headId : Nat
  tailId : Nat
  itemOffset : Nat
  headBytes : Nat
  /-- The index file. -/
  index : Bytes
  /-- The data files that exist. -/
  data : Nat → Option Bytes

/-- The entry at a position of the index file. -/
def readEntry (index : Bytes) (i : Nat) : Option IndexEntry :=
  if (i + 1) * indexEntrySize ≤ index.length then
    some (.unmarshalBinary ((index.drop (i * indexEntrySize)).take indexEntrySize))
  else none

namespace Table

/-! ## Files -/

/-- `openFile` with `openFreezerFileForAppend`: a missing file is created. -/
def openForAppend (t : Table) (num : Nat) : Table :=
  if num ∈ t.files then t
  else { t with
    files := num :: t.files
    data := Function.update t.data num (some ((t.data num).getD [])) }

/-- `openFile` with `openFreezerFileTruncated` -/
def openTruncated (t : Table) (num : Nat) : Table :=
  if num ∈ t.files then t
  else { t with files := num :: t.files, data := Function.update t.data num (some []) }

/-- `openFile` with `openFreezerFileForReadOnly` -/
def openForReadOnly (t : Table) (num : Nat) : Except FreezerError Table :=
  if num ∈ t.files then .ok t
  else if (t.data num).isNone then .error .openFile
  else .ok { t with files := num :: t.files }

def releaseFile (t : Table) (num : Nat) : Table := { t with files := t.files.filter (· ≠ num) }

/-- `releaseFilesAfter`: only open files are removed. -/
def releaseFilesAfter (t : Table) (num : Nat) (remove : Bool) : Table :=
  { t with
    files := t.files.filter (· ≤ num)
    data := fun k => if remove = true ∧ num < k ∧ k ∈ t.files then none else t.data k }

def head (t : Table) : Bytes := (t.data t.headId).getD []

def writeHead (t : Table) (b : Bytes) : Table :=
  { t with data := Function.update t.data t.headId (some (t.head ++ b)) }

def truncateHead (t : Table) (size : Nat) : Table :=
  { t with data := Function.update t.data t.headId (some (resize t.head size)) }

/-! ## Operations -/

variable (snappy : Snappy)

def stored (t : Table) (blob : Bytes) : Bytes :=
  if t.noCompression then blob else snappy.encode blob

/-- What can go wrong while a blob is appended. -/
inductive Fault where
  | openFile
  /-- Only some bytes are written to the head file. -/
  | write (written : Nat)
  deriving DecidableEq, Repr

/-- A new head file. The error of the reopening is ignored. -/
def nextFile (t : Table) : Table :=
  let nextID := (t.headId + 1) % 2 ^ 32
  let opened := (t.openTruncated nextID).releaseFile t.headId
  let opened := match opened.openForReadOnly t.headId with
    | .ok opened => opened
    | .error _ => opened
  { opened with headBytes := 0, headId := nextID }

def full (t : Table) (bLen : Nat) : Bool :=
  (t.headBytes + bLen) % 2 ^ 32 < bLen ∨ (t.headBytes + bLen) % 2 ^ 32 > t.maxFileSize

/-- The end of `Append`: the head file, then the index file. -/
def appendHead (t : Table) (blob : Bytes) (fault : Option Fault) :
    Except FreezerError Unit × Table :=
  match fault with
  | some (.write written) => (.error .write, t.writeHead (blob.take written))
  | some .openFile | none =>
    let newOffset := (t.headBytes + blob.length % 2 ^ 32) % 2 ^ 32
    (.ok (), { t.writeHead blob with
      headBytes := newOffset
      index := t.index ++ IndexEntry.marshallBinary ⟨t.headId, newOffset⟩
      items := t.items + 1 })

/-- `Append`, with the table that is left. -/
def append (t : Table) (item : Nat) (blob : Bytes) (fault : Option Fault) :
    Except FreezerError Unit × Table :=
  if t.items ≠ item then (.error (.unexpectedItem t.items item), t)
  else
    let blob := t.stored snappy blob
    if t.full (blob.length % 2 ^ 32) then
      if fault = some .openFile then (.error .openFile, t) else t.nextFile.appendHead blob fault
    else t.appendHead blob fault

def truncate (t : Table) (items : Nat) : Table :=
  if t.items ≤ items then t
  else
    let t := { t with index := resize t.index ((items + 1) * indexEntrySize) }
    let expected := (readEntry t.index items).getD ⟨0, 0⟩
    let t :=
      if expected.filenum ≠ t.headId then
        let t := (t.releaseFile expected.filenum).openForAppend expected.filenum
        { t.releaseFilesAfter expected.filenum true with headId := expected.filenum }
      else t
    { t.truncateHead expected.offset with items := items, headBytes := expected.offset }

/-- `getBounds`: start, end and file number. -/
def getBounds (t : Table) (item : Nat) : Except FreezerError (Nat × Nat × Nat) :=
  match readEntry t.index item, readEntry t.index (item + 1) with
  | some startIdx, some endIdx =>
    if startIdx.filenum ≠ endIdx.filenum then .ok (0, endIdx.offset, endIdx.filenum)
    else .ok (startIdx.offset, endIdx.offset, endIdx.filenum)
  | _, _ => .error .eof

/-- `ReadAt`: all of the bytes, or an error. -/
def readAt (file : Bytes) (start len : Nat) : Except FreezerError Bytes :=
  if start + len ≤ file.length then .ok ((file.drop start).take len) else .error .eof

def restored (t : Table) (blob : Bytes) : Except FreezerError Bytes :=
  if t.noCompression then .ok blob
  else match snappy.decode blob with
    | some b => .ok b
    | none => .error .decode

def sub32 (a b : Nat) : Nat := (a + 2 ^ 32 - b) % 2 ^ 32

def retrieve (t : Table) (item : Nat) : Except FreezerError Bytes :=
  if t.items ≤ item then .error .outOfBounds
  else if t.itemOffset > item then .error .outOfBounds
  else do
    let (startOffset, endOffset, filenum) ← t.getBounds (item - t.itemOffset)
    if filenum ∈ t.files then
      let blob ← readAt ((t.data filenum).getD []) startOffset (sub32 endOffset startOffset)
      t.restored snappy blob
    else .error (.missingDataFile filenum)

/-! ## Opening -/

structure Disk where
  index : Bytes
  data : Nat → Option Bytes

/-- The loop of `repair`, for an index of `entries` entries: they are dropped until the last one
points into its file, whose contents behind it are dropped then. The result has the number of
entries left and the last one. -/
def repairLoop : Nat → Table → IndexEntry → Nat → Except FreezerError (Table × Nat × IndexEntry)
  | entries, t, lastIndex, contentSize =>
    if lastIndex.offset = contentSize then .ok (t, entries, lastIndex)
    else if lastIndex.offset < contentSize then
      .ok ({ t with headId := lastIndex.filenum }.truncateHead lastIndex.offset, entries, lastIndex)
    else
      match entries with
      | 0 => .error .invalidSize
      | entries + 1 =>
        let t := { t with index := resize t.index (entries * indexEntrySize) }
        -- A read before the beginning of the file leaves the buffer as it is.
        let newLastIndex :=
          if entries = 0 then lastIndex else (readEntry t.index (entries - 1)).getD lastIndex
        if newLastIndex.filenum ≠ lastIndex.filenum then
          let t := (t.releaseFile lastIndex.filenum).openForAppend newLastIndex.filenum
          repairLoop entries t newLastIndex ((t.data newLastIndex.filenum).getD []).length
        else repairLoop entries t newLastIndex contentSize

/-- `preopen` -/
def preopen (t : Table) : Except FreezerError Table := do
  let t := t.releaseFilesAfter 0 false
  let t ← (List.range' t.tailId (t.headId - t.tailId)).foldlM openForReadOnly t
  .ok (t.openForAppend t.headId)

/-- The index file before the loop of `repair`: it has a first entry, and whole entries only. A file
that is shorter than one entry is cut to nothing, and gets no first entry. -/
def repairIndex (index : Bytes) : Bytes :=
  if index.length = 0 then List.replicate indexEntrySize 0
  else index.take (index.length - index.length % indexEntrySize)

def repair (t : Table) : Except FreezerError Table := do
  let t := { t with index := repairIndex t.index }
  let entries := t.index.length / indexEntrySize
  let firstIndex := (readEntry t.index 0).getD ⟨0, 0⟩
  let lastIndex := (if entries = 0 then none else readEntry t.index (entries - 1)).getD firstIndex
  let t := { t with tailId := firstIndex.offset, itemOffset := firstIndex.filenum }
  let t := t.openForAppend lastIndex.filenum
  let contentSize := ((t.data lastIndex.filenum).getD []).length
  let (t, entries, lastIndex) ← repairLoop entries t lastIndex contentSize
  -- The difference is a 64-bit number, and so is the sum.
  preopen { t with
    items := (t.itemOffset + (entries + (2 ^ 64 - 1)) % 2 ^ 64) % 2 ^ 64
    headBytes := lastIndex.offset
    headId := lastIndex.filenum }

/-- `newCustomTable` -/
def newCustomTable (disk : Disk) (maxFileSize : Nat) (noCompression : Bool) :
    Except FreezerError Table :=
  repair ⟨0, noCompression, maxFileSize, [], 0, 0, 0, 0, disk.index, disk.data⟩

end Table

end GethComments.Freezer
