import Firefly.Lib.Bytes
import Firefly.Lib.Nor

/-!
# Firefly.Storage.KeyValueStore

`fd_key_value_store.c`: key / value pairs in the flash pages of the persist partition. The state
is `fd_key_value_store_t` with the content of the partition (`flash`, addressed by offset in the
partition, so that a pointer into memory-mapped flash is its offset), and two counters of
history: the commands sent to the flash and the number of failed assertions, after which
`fd_assert_failure` lets the caller continue.

Objects enter as the chunks that `pb_encode` passes to the stream callback. The functions that
loop without a bound take fuel, and `none` means that it ran out. Listeners are not modelled.
-/

namespace Firefly
namespace KeyValueStore

open Bytes

/-- `fd_key_value_store_initialize` sets the page size and the minimum write size. -/
def pageSize : Nat := 4096

def minumumWriteSize : Nat := 4

/-- `sizeof(fd_key_value_store_metadata_t)`: the structure is packed. -/
def metadataSize : Nat := 12

@[simp] theorem pageSize_eq : pageSize = 4096 := rfl
@[simp] theorem minumumWriteSize_eq : minumumWriteSize = 4 := rfl
@[simp] theorem metadataSize_eq : metadataSize = 12 := rfl

structure Blob where
  offset : Nat
  size : Nat
  deriving DecidableEq

def flagsRemoved : Nat := 0x000001

/-- The flags of a slot that was never written. -/
def flagsErased : Nat := 0xffffffff

structure Metadata where
  flags : Nat
  key : Blob
  value : Blob
  deriving DecidableEq

namespace Metadata

def toBytes (m : Metadata) : List UInt8 :=
  leBytes 4 m.flags ++ leBytes 2 m.key.offset ++ leBytes 2 m.key.size ++
    leBytes 2 m.value.offset ++ leBytes 2 m.value.size

def ofBytes (bs : List UInt8) : Metadata where
  flags := leNat (bs.take 4)
  key := ⟨leNat ((bs.drop 4).take 2), leNat ((bs.drop 6).take 2)⟩
  value := ⟨leNat ((bs.drop 8).take 2), leNat ((bs.drop 10).take 2)⟩

end Metadata

structure OstreamState where
  buffer : Vector UInt8 16
  count : Nat

structure Current where
  page : Nat
  dataByteCount : Nat
  metadataCount : Nat
  deriving DecidableEq

/-- A C string: its bytes before the terminator. -/
structure CString where
  bytes : List UInt8
  nonzero : ∀ b ∈ bytes, b ≠ 0

/-- A `char *`: the bytes from there on. -/
abbrev Pointer := Nat → UInt8

def CString.pointer (k : CString) : Pointer := fun i => k.bytes.getD i 0

def CString.strlen (k : CString) : Nat := k.bytes.length

/-- An object with its descriptor: the chunks in which `pb_encode` streams it. -/
structure Message where
  chunks : List (List UInt8)

def Message.encoding (o : Message) : List UInt8 := o.chunks.flatten

structure Store where
  pageCount : Nat
  isFull : Bool
  current : Current
  dataWriteOffset : Nat
  ostreamState : OstreamState
  garbageCollectionCount : Nat
  flash : Nor.Image
  flashLog : List Nor.Command
  assertCount : Nat

namespace Store

/-- `fd_assert`: a failure is counted and the program goes on. -/
def assert (s : Store) (c : Bool) : Store :=
  if c then s else { s with assertCount := s.assertCount + 1 }

def getPageAddress (page : Nat) : Nat := page * pageSize

/-- Rounds up to the write unit: `(size + n) & ~n` with `n` one less than the write unit. -/
def getWriteSize (size : Nat) : Nat :=
  let n := minumumWriteSize - 1
  (size + n) - (size + n) % (n + 1)

def metadataAddress (page index : Nat) : Nat :=
  getPageAddress page + (pageSize - (index + 1) * metadataSize)

def getMetadata (s : Store) (page index : Nat) : Metadata :=
  .ofBytes (Nor.read s.flash (metadataAddress page index) metadataSize)

def getMetadataCount (s : Store) (page : Nat) : Nat :=
  let maxCount := pageSize / metadataSize
  ((List.range maxCount).find? fun i => (s.getMetadata page i).flags == flagsErased).getD 0

def isPageEmpty (s : Store) (page : Nat) : Bool × Store :=
  if (s.getMetadata page 0).flags ≠ flagsErased then (false, s)
  else
    let empty := (List.range pageSize).all fun i => s.flash (getPageAddress page + i) == 0xff
    (true, s.assert empty)

/-- The first of `pages` whose emptiness is `want`: both loops of `getCurrentPage`. -/
def findPage (s : Store) (want : Bool) : List Nat → Option Nat × Store
  | [] => (none, s)
  | page :: pages =>
    let (empty, s) := s.isPageEmpty page
    if empty = want then (some page, s) else s.findPage want pages

/-- The result and `*current_page`. -/
def getCurrentPage (s : Store) : (Bool × Nat) × Store :=
  let s := { s with isFull := false }
  match s.findPage false (List.range s.pageCount) with
  | (none, s) => ((true, 0), s)
  | (some firstOccupiedPage, s) =>
    let pages := (List.range' 1 (s.pageCount - 1)).map fun i =>
      (firstOccupiedPage + i) % s.pageCount
    match s.findPage true pages with
    | (none, s) => ((false, 0), s)
    | (some firstEmptyPage, s) =>
      ((true, (firstEmptyPage + s.pageCount - 1) % s.pageCount), s)

def updateCurrent (s : Store) : Store :=
  let ((found, page), s) := s.getCurrentPage
  let s := { s with isFull := !found, current := ⟨page, 0, 0⟩ }
  if s.isFull then s
  else
    let metadataCount := s.getMetadataCount page
    let s := { s with current := ⟨page, 0, metadataCount⟩ }
    if metadataCount = 0 then s
    else
      let metadata := s.getMetadata page (metadataCount - 1)
      let dataSize := getWriteSize (metadata.key.size + metadata.value.size)
      { s with current := ⟨page, metadata.key.offset + dataSize, metadataCount⟩ }

/-- `strncmp(a, b, n) == 0`: equal up to `n` characters or a common terminator. -/
def strncmpEq (a b : Pointer) : Nat → Bool
  | 0 => true
  | n + 1 => a 0 == b 0 && (a 0 == 0 || strncmpEq (fun i => a (i + 1)) (fun i => b (i + 1)) n)

/-- The loop of `lookupOnPage` over the records below index `i`, newest first. The result is the
value's address and size. -/
def scan (s : Store) (page : Nat) (key : Pointer) (keySize : Nat) : Nat → Option (Nat × Nat)
  | 0 => none
  | i + 1 =>
    let metadata := s.getMetadata page i
    let keyAddress := getPageAddress page + metadata.key.offset
    if metadata.key.size = keySize ∧ strncmpEq key (fun j => s.flash (keyAddress + j)) keySize then
      if metadata.flags &&& flagsRemoved ≠ 0 then none
      else some (getPageAddress page + metadata.value.offset, metadata.value.size)
    else s.scan page key keySize i

def lookupOnPage (s : Store) (page : Nat) (key : Pointer) (keySize : Nat) : Option (Nat × Nat) :=
  s.scan page key keySize (s.getMetadataCount page)

/-- The `do … while` of `lookup` from `page` down to the current page again. -/
def lookupFrom (s : Store) (key : Pointer) (keySize : Nat) : Nat → Nat → Option (Nat × Nat)
  | 0, _ => none
  | fuel + 1, page =>
    match s.lookupOnPage page key keySize with
    | some data => some data
    | none =>
      let page := if page > 0 then page - 1 else s.pageCount - 1
      if page ≠ s.current.page then s.lookupFrom key keySize fuel page else none

def lookup (s : Store) (key : Pointer) (keySize : Nat) : Option (Nat × Nat) :=
  s.lookupFrom key keySize s.pageCount s.current.page

def nvmErase (s : Store) (page : Nat) : Store :=
  { s with
    flash := Nor.erase s.flash (page * pageSize) pageSize
    flashLog := s.flashLog ++ [.erase (page * pageSize) pageSize] }

def nvmWrite (s : Store) (offset : Nat) (data : List UInt8) : Store :=
  { s with
    flash := Nor.program s.flash offset data
    flashLog := s.flashLog ++ [.program offset data] }

def ostreamWrite (s : Store) : Store :=
  let state := s.ostreamState
  let s := s.assert (state.count ≤ 16)
  let offset := s.current.page * pageSize + s.dataWriteOffset
  let s := s.nvmWrite offset (state.buffer.toList.take state.count)
  { s with
    dataWriteOffset := s.dataWriteOffset + state.count
    ostreamState := { state with count := 0 } }

def ostreamFlush (s : Store) : Store :=
  if s.ostreamState.count = 0 then s
  else
    let state := { s.ostreamState with count := getWriteSize s.ostreamState.count }
    { s with ostreamState := state }.ostreamWrite

/-- One turn of the loop of `ostreamCallback`. -/
def ostreamPut (s : Store) (b : UInt8) : Store :=
  let s := if s.ostreamState.count ≥ 16 then s.ostreamWrite else s
  let state := s.ostreamState
  { s with ostreamState := ⟨state.buffer.setIfInBounds state.count b, state.count + 1⟩ }

def ostreamCallback (s : Store) (data : List UInt8) : Store := data.foldl ostreamPut s

def ostream (s : Store) : Store := { s with ostreamState := { s.ostreamState with count := 0 } }

/-- `pb_encode` hands the chunks of the encoding to the callback. -/
def pbEncode (s : Store) (object : Message) : Store := object.chunks.foldl ostreamCallback s

/-- `page_size - used` wraps when the assertion fails, `size_t` having 32 bits. -/
def currentFreeBytes (s : Store) : Nat × Store :=
  let used := s.current.dataByteCount + s.current.metadataCount * metadataSize
  ((pageSize + 2 ^ 32 - used % 2 ^ 32) % 2 ^ 32, s.assert (used ≤ pageSize))

def setCommit (s : Store) (keySize valueSize dataSize flags : Nat) : Store :=
  let metadata : Metadata := {
    flags := flags
    key := ⟨s.current.dataByteCount, keySize⟩
    value := ⟨s.current.dataByteCount + keySize, valueSize⟩ }
  let current : Current := {
    page := s.current.page
    dataByteCount := s.current.dataByteCount + dataSize
    metadataCount := s.current.metadataCount + 1 }
  let offset := current.page * pageSize + pageSize - current.metadataCount * metadataSize
  { s with current := current }.nvmWrite offset metadata.toBytes

def write (s : Store) (key value : List UInt8) (flags : Nat) : Store :=
  let s := { s with dataWriteOffset := s.current.dataByteCount }
  let s := (((s.ostream).ostreamCallback key).ostreamCallback value).ostreamFlush
  s.setCommit key.length value.length (getWriteSize (key.length + value.length)) flags

/-- The body of the loop of `garbageCollect` for record `i` of `page`. -/
def collectRecord (page : Nat) (s : Store) (i : Nat) : Store :=
  let metadata := s.getMetadata page i
  if metadata.flags &&& flagsRemoved ≠ 0 then s
  else
    let keyAddress := getPageAddress page + metadata.key.offset
    let key : Pointer := fun j => s.flash (keyAddress + j)
    if (s.lookupOnPage s.current.page key metadata.key.size).isSome then s
    else if (s.lookup key metadata.key.size).isNone then s
    else
      s.write (Nor.read s.flash keyAddress metadata.key.size)
        (Nor.read s.flash (getPageAddress page + metadata.value.offset) metadata.value.size) 0

def garbageCollect (s : Store) : Store :=
  let page := (s.current.page + 1) % s.pageCount
  let (empty, s) := s.isPageEmpty page
  let s := s.assert (!empty)
  let metadataCount := s.getMetadataCount page
  let s := (List.range metadataCount).foldl (collectRecord page) s
  let s := s.nvmErase page
  { s with garbageCollectionCount := s.garbageCollectionCount + 1 }

def advanceCurrentPage (s : Store) : Store :=
  let page := (s.current.page + 1) % s.pageCount
  let (empty, s) := s.isPageEmpty page
  let s := s.assert empty
  { s with current := ⟨page, 0, 0⟩ }

/-- The loop of `allocate`. -/
def allocateLoop (size : Nat) : Nat → Nat → Store → Option (Bool × Store)
  | 0, _, _ => none
  | fuel + 1, collectionCount, s =>
    let (free, s) := s.currentFreeBytes
    if size ≤ free then some (true, { s with dataWriteOffset := s.current.dataByteCount })
    else
      let s := s.advanceCurrentPage
      let skipPage := (s.current.page + 1) % s.pageCount
      let (empty, s) := s.isPageEmpty skipPage
      if empty then allocateLoop size fuel collectionCount s
      else
        -- only one page free, time to garbage collect
        let s := s.garbageCollect
        if collectionCount + 1 > s.pageCount then some (false, { s with isFull := true })
        else allocateLoop size fuel (collectionCount + 1) s

/-- The states in which the loop of `allocate` calls `garbageCollect`. -/
def collections (size : Nat) : Nat → Nat → Store → List Store
  | 0, _, _ => []
  | fuel + 1, collectionCount, s =>
    let (free, s) := s.currentFreeBytes
    if size ≤ free then []
    else
      let s := s.advanceCurrentPage
      let (empty, s) := s.isPageEmpty ((s.current.page + 1) % s.pageCount)
      if empty then collections size fuel collectionCount s
      else if collectionCount + 1 > s.garbageCollect.pageCount then [s]
      else s :: collections size fuel (collectionCount + 1) s.garbageCollect

def allocate (fuel : Nat) (s : Store) (size : Nat) : Option (Bool × Store) :=
  if s.isFull then some (false, s) else allocateLoop size fuel 0 s

/-- The bytes a record needs: its data, its metadata and the end marker. -/
def requiredSize (keySize valueSize : Nat) : Nat :=
  getWriteSize (keySize + valueSize) + metadataSize + metadataSize

def allocateKeyValue (fuel : Nat) (s : Store) (keySize valueSize : Nat) : Option (Bool × Store) :=
  match s.allocate fuel (requiredSize keySize valueSize) with
  | none => none
  | some (result, s) => some (result, s.assert result)

/-- What `add` does once there is room; `none` is the `NULL` descriptor of a removal. -/
def addRecord (s : Store) (key : CString) (object : Option Message) : Store :=
  let valueSize := (object.elim [] Message.encoding).length
  let s := s.ostream.ostreamCallback key.bytes
  let s := object.elim s s.pbEncode
  let dataSize := getWriteSize (key.strlen + valueSize)
  s.ostreamFlush.setCommit key.strlen valueSize dataSize (if object.isNone then flagsRemoved else 0)

def add (fuel : Nat) (s : Store) (key : CString) (object : Option Message) :
    Option (Bool × Store) :=
  match s.allocateKeyValue fuel key.strlen (object.elim [] Message.encoding).length with
  | none => none
  | some (false, s) => some (false, s)
  | some (true, s) => some (true, s.addRecord key object)

def isSet (s : Store) (key : CString) : Bool := (s.lookup key.pointer key.strlen).isSome

structure EqualStreamState where
  value : Pointer
  size : Nat
  count : Nat
  isEqual : Bool

def equalStreamPut (state : EqualStreamState) (b : UInt8) : EqualStreamState :=
  if state.count < state.size then
    { state with
      isEqual := if b ≠ state.value state.count then false else state.isEqual
      count := state.count + 1 }
  else state

def equalStreamCallback (state : EqualStreamState) (data : List UInt8) : EqualStreamState :=
  data.foldl equalStreamPut state

/-- A failed lookup leaves the size at 0 and the value `NULL`, which is not read then. -/
def isSetTo (s : Store) (key : CString) (object : Message) : Bool :=
  let (value, valueSize) := (s.lookup key.pointer key.strlen).getD (0, 0)
  let state := object.chunks.foldl equalStreamCallback ⟨fun i => s.flash (value + i), valueSize, 0, true⟩
  state.isEqual && object.encoding.length == valueSize

def set (fuel : Nat) (s : Store) (key : CString) (object : Message) : Option (Bool × Store) :=
  if s.isSetTo key object then some (true, s) else s.add fuel key (some object)

def remove (fuel : Nat) (s : Store) (key : CString) : Option (Bool × Store) :=
  if !s.isSet key then some (true, s) else s.add fuel key none

def erase (s : Store) : Store := ((List.range s.pageCount).foldl nvmErase s).updateCurrent

/-- The bytes `lookup` finds for a key. -/
def lookupValue (s : Store) (key : CString) : Option (List UInt8) :=
  (s.lookup key.pointer key.strlen).map fun (address, size) => Nor.read s.flash address size

end Store

/-! ## Runs -/

inductive Op where
  | set (key : CString) (object : Message)
  | remove (key : CString)
  | erase

def Op.exec (fuel : Nat) (s : Store) : Op → Option (Bool × Store)
  | set key object => s.set fuel key object
  | remove key => s.remove fuel key
  | erase => some (true, s.erase)

/-- The call returns `result` and leaves `s'`. -/
def Op.Returns (op : Op) (s : Store) (result : Bool) (s' : Store) : Prop :=
  ∃ fuel, op.exec fuel s = some (result, s')

/-- The size of the data of the record the call adds in state `s`, if it adds one. -/
def Op.recordSize (s : Store) : Op → Option Nat
  | set key object =>
    if s.isSetTo key object then none
    else some (Store.getWriteSize (key.strlen + object.encoding.length))
  | remove key => if !s.isSet key then none else some (Store.getWriteSize key.strlen)
  | erase => none

/-- The record, if any, fits an otherwise empty page. -/
def Op.Fits (s : Store) (op : Op) : Prop := ∀ size ∈ op.recordSize s, size + 24 ≤ pageSize

/-- The store after `erase`, from where the history is counted. -/
def Store.erased (s : Store) : Store := { s with flashLog := [], assertCount := 0 }.erase

/-- Start-up over the flash that is there: `updateCurrent` on whatever `ram` holds. -/
def Store.start (ram : Store) (flash : Nor.Image) : Store :=
  { ram with flash := flash, flashLog := [], assertCount := 0 }.updateCurrent

/-- RAM after reset over erased flash. -/
def Store.blank (pageCount : Nat) : Store where
  pageCount := pageCount
  isFull := false
  current := ⟨0, 0, 0⟩
  dataWriteOffset := 0
  ostreamState := ⟨Vector.replicate 16 0, 0⟩
  garbageCollectionCount := 0
  flash := fun _ => 0xff
  flashLog := []
  assertCount := 0

/-- From `s₀` the calls return the results and leave the store; every step meets `P`. -/
inductive Run (P : Store → Op → Bool → Prop) (s₀ : Store) : List (Op × Bool) → Store → Prop where
  | nil : Run P s₀ [] s₀
  | snoc {calls : List (Op × Bool)} {s s' : Store} {op : Op} {result : Bool}
      (h : Run P s₀ calls s) (hr : op.Returns s result s') (hP : P s op result) :
      Run P s₀ (calls ++ [(op, result)]) s'

end KeyValueStore
end Firefly
