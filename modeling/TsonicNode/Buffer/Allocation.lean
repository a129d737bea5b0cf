import TsonicNode.Runtime
import TsonicNode.Lib.Number
import TsonicNode.Lib.Run

/-!
# The buffer pool

Small buffers are cut one behind the other from a storage they share. `Memory`
holds the storages and the pool; a `Buffer` is a range of a storage.
`pooledBuffer` serves from the pool, `concat` joins buffers in a buffer of its
own.
-/

namespace TsonicNode.Allocation

open TsonicNode.Lib

/-! ## Memory -/

structure Pool where
  size : Number := 8192
  /-- The storage that is cut. -/
  storage : Option Nat := none
  position : Nat := 0

structure Memory where
  storages : List (List UInt8) := []
  pool : Pool := {}

structure Buffer where
  storage : Nat
  offset : Nat
  length : Nat
  deriving DecidableEq

namespace Memory

def byte (memory : Memory) (storage index : Nat) : UInt8 := (memory.storages.getD storage []).getD index 0

def size (memory : Memory) (storage : Nat) : Nat := (memory.storages.getD storage []).length

def put (memory : Memory) (storage index : Nat) (value : UInt8) : Memory :=
  { memory with storages := memory.storages.modify storage (·.set index value) }

/-- A storage of zeros. -/
def extend (memory : Memory) (size : Nat) : Memory :=
  { memory with storages := memory.storages ++ [List.replicate size 0] }

end Memory

/-- The bytes a buffer reads. -/
def Buffer.bytes (memory : Memory) (buffer : Buffer) : List UInt8 :=
  (List.range buffer.length).map fun index => memory.byte buffer.storage (buffer.offset + index)

abbrev Action := EStateM Error Memory

/-! ## Allocation -/

/-- `Buffer()`. -/
def empty : Action Buffer := do
  let storage := (← get).storages.length
  modify (·.extend 0)
  return ⟨storage, 0, 0⟩

/-- `Buffer.allocate`, with zeros. -/
def allocate (size : Nat) : Action Buffer := do
  let storage := (← get).storages.length
  modify (·.extend size)
  return ⟨storage, 0, size⟩

def checkedBufferSize (size : Number) : Action Nat :=
  match size.between 0 9007199254740991 with
  | none => throw ⟨"Buffer size is outside the valid range"⟩
  | some value => return (truncate value).toNat

def setBufferPoolSize (value : Number) : Action Unit :=
  modify fun memory => { memory with pool := { memory.pool with size := value } }

/-- The storage of the pool, where it has room for so many bytes. -/
def Memory.room (memory : Memory) (size : Nat) : Option Nat :=
  match memory.pool.storage with
  | none => none
  | some storage =>
    if (size : Int) > (memory.size storage : Int) - memory.pool.position then none else some storage

/-- A new storage for the pool. -/
def renew (size : Nat) : Action Nat := do
  let storage ← allocate (← checkedBufferSize (← get).pool.size)
  if storage.length < size then throw ⟨"Buffer pool cannot contain the requested allocation"⟩
  modify fun memory => { memory with pool := { memory.pool with storage := some storage.storage, position := 0 } }
  return storage.storage

/-- The next bytes of the pool, and the first position behind them that eight divides. -/
def cut (storage size : Nat) : Action Buffer := do
  let position := (← get).pool.position
  modify fun memory =>
    { memory with pool := { memory.pool with position := (position + size + 7) / 8 * 8 } }
  return ⟨storage, position, size⟩

def pooledBuffer (size : Nat) : Action Buffer := do
  if size = 0 then empty
  else
    let memory ← get
    let threshold := memory.pool.size.toUint32 / 2
    if threshold ≤ size then allocate size
    else
      match memory.room size with
      | some storage => cut storage size
      | none =>
        let storage ← renew size
        cut storage size

def bufferAllocUnsafe (size : Number) : Action Buffer := do pooledBuffer (← checkedBufferSize size)

/-- `buffer_alloc` and `buffer_alloc_unsafe_slow`. -/
def bufferAlloc (size : Number) : Action Buffer := do allocate (← checkedBufferSize size)

/-! ## Writing -/

namespace Buffer

def set (buffer : Buffer) (index : Nat) (value : UInt8) : Action Unit :=
  if buffer.length ≤ index then throw ⟨"Buffer index is outside the valid range"⟩
  else modify (·.put buffer.storage (buffer.offset + index) value)

/-- `set` with one byte after the other. -/
def setAll (buffer : Buffer) : Nat → List UInt8 → Action Unit
  | _, [] => return
  | index, value :: values => do
    buffer.set index value
    buffer.setAll (index + 1) values

end Buffer

def pooledBytes (bytes : List UInt8) : Action Buffer := do
  let result ← pooledBuffer bytes.length
  result.setAll 0 bytes
  return result

/-- `copy_offset`. -/
def copyOffset (value : Number) : Int :=
  match value.between (-9007199254740991) 9007199254740991 with
  | none => 0
  | some value => ⌊value⌋

/-- One byte of a copy. -/
def moveByte (source target sourcePosition targetPosition : Nat) (memory : Memory) (index : Nat) : Memory :=
  memory.put target (targetPosition + index) (memory.byte source (sourcePosition + index))

namespace Buffer

/-- Backwards where the target begins in the middle of what is copied. -/
def order (source target : Buffer) (sourcePosition targetPosition count : Nat) : List Nat :=
  if source.storage = target.storage ∧ targetPosition > sourcePosition ∧
      targetPosition < sourcePosition + count then (List.range count).reverse
  else List.range count

/-- Where a copy ends, of the whole buffer at its length. -/
def copyEnd (source : Buffer) : Option Number → Int
  | some sourceEnd => copyOffset sourceEnd
  | none => source.length

def copy (source target : Buffer) (targetStart : Number) (sourceStart : Number) (sourceEnd : Option Number) :
    Action Nat := do
  let sourceFirst := copyOffset sourceStart
  let sourceLast := source.copyEnd sourceEnd
  let targetFirst := copyOffset targetStart
  if sourceFirst < 0 ∨ sourceFirst > source.length ∨ sourceLast < 0 ∨ targetFirst < 0 then
    throw ⟨"Buffer copy offset is outside the valid range"⟩
  if targetFirst ≥ target.length ∨ sourceFirst ≥ sourceLast then return 0
  else
    let count := (min (min sourceLast source.length - sourceFirst) (target.length - targetFirst)).toNat
    let sourcePosition := source.offset + sourceFirst.toNat
    let targetPosition := target.offset + targetFirst.toNat
    modify ((source.order target sourcePosition targetPosition count).foldl
      (moveByte source.storage target.storage sourcePosition targetPosition))
    return count

end Buffer

/-! ## Concatenation -/

/-- `checked_integer`. -/
def checkedInteger (value : Number) (maximum : ℚ) (name : String) : Action Nat :=
  match value.between 0 maximum with
  | none => throw ⟨"Invalid " ++ name⟩
  | some value =>
    if (truncate value : ℚ) ≠ value then throw ⟨name ++ " must be an integer"⟩
    else return (truncate value).toNat

/-- The length of buffers one behind the other. -/
def totalLength : Nat → List Buffer → Action Nat
  | length, [] => return length
  | length, value :: values =>
    if (value.length : Int) > 9007199254740991 - length then
      throw ⟨"Buffer concatenation exceeds the supported length"⟩
    else totalLength (length + value.length) values

/-- The loop of `buffer_concat`. -/
def copyAll (result : Buffer) : Nat → List Buffer → Action Unit
  | _, [] => return
  | offset, value :: values => do
    if result.length ≤ offset then return
    else
      let count ← value.copy result (.finite offset) 0 none
      copyAll result (offset + count) values

def bufferConcat (values : List Buffer) (total : Option Number) : Action Buffer := do
  if values = [] then empty
  else
    let length ← match total with
      | some total => checkedInteger total 9007199254740991 "totalLength"
      | none => totalLength 0 values
    let result ← pooledBuffer length
    copyAll result 0 values
    return result

/-! ## Bytes -/

namespace Memory

variable {memory : Memory}

theorem byte_put (storage index storage' index' : Nat) (value : UInt8) :
    (memory.put storage index value).byte storage' index' =
      if storage' = storage ∧ index' = index ∧ index < memory.size storage then value
      else memory.byte storage' index' := by
  unfold byte put size
  simp only [List.getD_eq_getElem?_getD, List.getElem?_modify, Option.map_eq_map]
  by_cases hstorage : storage' = storage
  · subst hstorage
    cases hlist : memory.storages[storage']? with
    | none => simp
    | some list =>
      by_cases hindex : index = index'
      · subst hindex
        by_cases hlength : index < list.length <;> simp [hlength]
      · simp [hindex, Ne.symm hindex]
  · have hne : ¬ storage = storage' := fun h => hstorage h.symm
    cases memory.storages[storage']? <;> simp [hstorage, hne]

@[simp] theorem size_put (storage index storage' : Nat) (value : UInt8) :
    (memory.put storage index value).size storage' = memory.size storage' := by
  unfold size put
  simp only [List.getD_eq_getElem?_getD, List.getElem?_modify]
  cases memory.storages[storage']? with
  | none => rfl
  | some list =>
    by_cases h : storage = storage' <;> simp [h]

@[simp] theorem put_storages_length (storage index : Nat) (value : UInt8) :
    (memory.put storage index value).storages.length = memory.storages.length :=
  List.length_modify ..

/-- A new storage reads as zeros, as what is no storage does. -/
@[simp] theorem byte_extend (size storage index : Nat) :
    (memory.extend size).byte storage index = memory.byte storage index := by
  unfold byte extend
  simp only [List.getD_eq_getElem?_getD, List.getElem?_append]
  by_cases hstorage : storage < memory.storages.length
  · rw [if_pos hstorage]
  · have hnone : memory.storages[storage]? = none := List.getElem?_eq_none (by omega)
    rw [if_neg hstorage, hnone]
    by_cases hnew : storage - memory.storages.length = 0
    · rw [hnew]
      by_cases hindex : index < size <;> simp [hindex]
    · rw [List.getElem?_singleton, if_neg hnew]

theorem size_extend (size storage : Nat) :
    (memory.extend size).size storage =
      if storage = memory.storages.length then size else memory.size storage := by
  unfold Memory.size extend
  simp only [List.getD_eq_getElem?_getD, List.getElem?_append]
  by_cases hstorage : storage < memory.storages.length
  · rw [if_pos hstorage, if_neg (by omega)]
  · rw [if_neg hstorage, List.getElem?_singleton, List.getElem?_eq_none (by omega)]
    by_cases hnew : storage = memory.storages.length
    · rw [if_pos (by omega), if_pos hnew]
      simp
    · rw [if_neg (by omega), if_neg hnew]

theorem byte_of_le {storage : Nat} (h : memory.storages.length ≤ storage) (index : Nat) :
    memory.byte storage index = 0 := by
  have hnone : memory.storages[storage]? = none := List.getElem?_eq_none h
  simp [byte, hnone]

@[simp] theorem extend_storages_length (size : Nat) :
    (memory.extend size).storages.length = memory.storages.length + 1 := by
  simp [extend]

end Memory

theorem Buffer.bytes_length (memory : Memory) (buffer : Buffer) :
    (buffer.bytes memory).length = buffer.length := by
  simp [Buffer.bytes]

end TsonicNode.Allocation
