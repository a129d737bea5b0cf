import Mathlib.Data.List.GetD
import TsonicNode.Lib.Effect
import TsonicNode.Buffer.Allocation

/-!
# Buffers do not share bytes

`Laid` says that the buffers that were handed out are ranges of their storages
without common bytes, and that the pool reads as zeros behind its position. An
allocation keeps it and hands out a buffer of zeros (`Served`), unless the pool is
`Exhausted`; what is written to a buffer stays within its range (`Touches`).
`Isolated` adds that a buffer reads as zeros until it is written to, and holds in
every run.
-/

namespace TsonicNode.Allocation

open TsonicNode.Lib

/-! ## Ranges -/

structure Placed (memory : Memory) (buffer : Buffer) : Prop where
  storage : buffer.storage < memory.storages.length
  fits : buffer.offset + buffer.length ≤ memory.size buffer.storage

/-- Without a common byte. -/
def Apart (buffer other : Buffer) : Prop :=
  buffer.storage ≠ other.storage ∨ buffer.offset + buffer.length ≤ other.offset ∨
    other.offset + other.length ≤ buffer.offset

theorem Apart.symm {buffer other : Buffer} (h : Apart buffer other) : Apart other buffer := by
  rcases h with h | h | h
  · exact .inl (Ne.symm h)
  · exact .inr (.inr h)
  · exact .inr (.inl h)

/-- The pool is cut up to its position, and zero behind it. -/
structure Clear (memory : Memory) (buffers : List Buffer) (storage : Nat) : Prop where
  count : storage < memory.storages.length
  used : ∀ buffer ∈ buffers, buffer.storage = storage → buffer.offset + buffer.length ≤ memory.pool.position
  zeros : ∀ index, memory.pool.position ≤ index → memory.byte storage index = 0

structure Laid (memory : Memory) (buffers : List Buffer) : Prop where
  placed : ∀ buffer ∈ buffers, Placed memory buffer
  apart : buffers.Pairwise Apart
  pool : ∀ storage, memory.pool.storage = some storage → Clear memory buffers storage

/-- Storages are added, and none is written to. -/
structure Grows (memory memory' : Memory) : Prop where
  count : memory.storages.length ≤ memory'.storages.length
  size : ∀ storage, storage < memory.storages.length → memory'.size storage = memory.size storage
  byte : ∀ storage index, memory'.byte storage index = memory.byte storage index

theorem Grows.refl (memory : Memory) : Grows memory memory := ⟨Nat.le_refl _, fun _ _ => rfl, fun _ _ => rfl⟩

theorem Grows.trans {memory memory' memory'' : Memory} (h : Grows memory memory') (h' : Grows memory' memory'') :
    Grows memory memory'' where
  count := h.count.trans h'.count
  size storage hstorage := (h'.size storage (hstorage.trans_le h.count)).trans (h.size storage hstorage)
  byte storage index := (h'.byte storage index).trans (h.byte storage index)

theorem Placed.grows {memory memory' : Memory} {buffer : Buffer} (h : Placed memory buffer)
    (hgrows : Grows memory memory') : Placed memory' buffer where
  storage := h.storage.trans_le hgrows.count
  fits := (hgrows.size _ h.storage).symm ▸ h.fits

theorem grows_extend (memory : Memory) (size : Nat) : Grows memory (memory.extend size) where
  count := by simp
  size storage hstorage := by rw [Memory.size_extend, if_neg (by omega)]
  byte storage index := Memory.byte_extend size storage index

/-! ## Allocation -/

/-- A buffer that was handed out for `length` bytes. -/
structure Served (memory : Memory) (buffers : List Buffer) (length : Nat) (buffer : Buffer)
    (memory' : Memory) : Prop where
  laid : Laid memory' (buffers ++ [buffer])
  grows : Grows memory memory'
  length : buffer.length = length
  zeros : ∀ index < buffer.length, memory'.byte buffer.storage (buffer.offset + index) = 0

section
variable {memory : Memory} {buffers : List Buffer} (h : Laid memory buffers)

include h

theorem Laid.snoc {buffer : Buffer} (hplaced : Placed memory buffer) (hapart : ∀ other ∈ buffers, Apart other buffer)
    (hpool : ∀ storage, memory.pool.storage = some storage →
      buffer.storage = storage → buffer.offset + buffer.length ≤ memory.pool.position) :
    Laid memory (buffers ++ [buffer]) where
  placed other hother := by
    rcases List.mem_append.mp hother with hother | hother
    · exact h.placed other hother
    · rw [List.mem_singleton.mp hother]
      exact hplaced
  apart := by
    rw [List.pairwise_append]
    refine ⟨h.apart, List.pairwise_singleton _ _, fun other hother buffer' hbuffer => ?_⟩
    rw [List.mem_singleton.mp hbuffer]
    exact hapart other hother
  pool storage hstorage := by
    obtain ⟨hcount, hused, hzeros⟩ := h.pool storage hstorage
    refine ⟨hcount, fun other hother => ?_, hzeros⟩
    rcases List.mem_append.mp hother with hother | hother
    · exact hused other hother
    · rw [List.mem_singleton.mp hother]
      exact hpool storage hstorage

/-- A storage of its own. -/
theorem Laid.extend (size : Nat) : Laid (memory.extend size) buffers where
  placed buffer hbuffer := (h.placed buffer hbuffer).grows (grows_extend memory size)
  apart := h.apart
  pool storage hstorage := by
    obtain ⟨hcount, hused, hzeros⟩ := h.pool storage hstorage
    refine ⟨?_, hused, fun index hindex => ?_⟩
    · rw [Memory.extend_storages_length]
      omega
    · rw [Memory.byte_extend]
      exact hzeros index hindex

theorem served_extend (size : Nat) :
    Served memory buffers size ⟨memory.storages.length, 0, size⟩ (memory.extend size) where
  laid := by
    refine (h.extend size).snoc ⟨?_, ?_⟩ (fun other hother => .inl ?_) fun storage hstorage heq => ?_
    · simp
    · simp [Memory.size_extend]
    · exact (h.placed other hother).storage.ne
    · have hcount : storage < memory.storages.length := (h.pool storage hstorage).count
      have heq : memory.storages.length = storage := heq
      omega
  grows := grows_extend memory size
  length := rfl
  zeros index _ := by
    rw [Memory.byte_extend]
    exact Memory.byte_of_le (Nat.le_refl _) _

/-- The next bytes of the pool. -/
theorem served_cut {storage size : Nat} (hstorage : memory.pool.storage = some storage)
    (hroom : (size : Int) ≤ (memory.size storage : Int) - memory.pool.position) :
    Served memory buffers size ⟨storage, memory.pool.position, size⟩
      { memory with pool := { memory.pool with position := (memory.pool.position + size + 7) / 8 * 8 } } := by
  obtain ⟨hcount, hused, hzeros⟩ := h.pool storage hstorage
  -- the position moves behind the buffer
  have hmoved : Laid { memory with
      pool := { memory.pool with position := (memory.pool.position + size + 7) / 8 * 8 } } buffers := by
    refine ⟨fun buffer hbuffer => ⟨(h.placed buffer hbuffer).storage, (h.placed buffer hbuffer).fits⟩, h.apart,
      fun storage' hstorage' => ?_⟩
    obtain rfl : storage = storage' := Option.some.inj (hstorage.symm.trans hstorage')
    refine ⟨hcount, fun buffer hbuffer heq => ?_, fun index hindex => hzeros index ?_⟩
    · have := hused buffer hbuffer heq
      show _ ≤ (memory.pool.position + size + 7) / 8 * 8
      omega
    · have hindex : (memory.pool.position + size + 7) / 8 * 8 ≤ index := hindex
      omega
  refine ⟨hmoved.snoc ⟨hcount, ?_⟩ (fun other hother => ?_) fun storage' hstorage' heq => ?_,
    ⟨Nat.le_refl _, fun _ _ => rfl, fun _ _ => rfl⟩, rfl, fun index _ => hzeros _ (Nat.le_add_right _ _)⟩
  · show memory.pool.position + size ≤ memory.size storage
    omega
  · by_cases heq : other.storage = storage
    · exact .inr (.inl (hused other hother heq))
    · exact .inl heq
  · show memory.pool.position + size ≤ (memory.pool.position + size + 7) / 8 * 8
    omega

/-- A new storage for the pool. -/
theorem Laid.renewed (size : Nat) :
    Laid { memory.extend size with
      pool := { memory.pool with storage := some memory.storages.length, position := 0 } } buffers where
  placed buffer hbuffer :=
    ⟨((h.extend size).placed buffer hbuffer).storage, ((h.extend size).placed buffer hbuffer).fits⟩
  apart := h.apart
  pool storage hstorage := by
    obtain rfl : memory.storages.length = storage := Option.some.inj hstorage
    refine ⟨?_, fun buffer hbuffer heq => ?_, fun index _ => ?_⟩
    · show memory.storages.length < (memory.extend size).storages.length
      simp
    · exact absurd heq (h.placed buffer hbuffer).storage.ne
    · exact (Memory.byte_extend size _ index).trans (Memory.byte_of_le (Nat.le_refl _) index)

end

/-- What stays when an allocation raises. -/
structure Unserved (memory : Memory) (buffers : List Buffer) (memory' : Memory) : Prop where
  laid : Laid memory' buffers
  grows : Grows memory memory'

section
variable {memory : Memory} {buffers : List Buffer} (h : Laid memory buffers)

include h

theorem wp_checkedBufferSize {size : Number} {Q : Nat → Memory → Prop} (hQ : ∀ value, Q value memory) :
    wp (checkedBufferSize size) Q (fun _ memory' => Unserved memory buffers memory') memory := by
  unfold checkedBufferSize
  split
  · exact ⟨h, .refl memory⟩
  · exact hQ _

theorem wp_allocate (size : Nat) :
    wp (allocate size) (fun buffer memory' => Served memory buffers size buffer memory')
      (fun _ memory' => Unserved memory buffers memory') memory :=
  served_extend h size

theorem wp_empty :
    wp empty (fun buffer memory' => Served memory buffers 0 buffer memory')
      (fun _ memory' => Unserved memory buffers memory') memory :=
  served_extend h 0

theorem wp_cut {storage size : Nat} (hstorage : memory.pool.storage = some storage)
    (hroom : (size : Int) ≤ (memory.size storage : Int) - memory.pool.position) :
    wp (cut storage size) (fun buffer memory' => Served memory buffers size buffer memory')
      (fun _ memory' => Unserved memory buffers memory') memory :=
  served_cut h hstorage hroom

omit h in
theorem room_spec {storage size : Nat} (hroom : memory.room size = some storage) :
    memory.pool.storage = some storage ∧
      (size : Int) ≤ (memory.size storage : Int) - memory.pool.position := by
  unfold Memory.room at hroom
  split at hroom
  · cases hroom
  · rename_i storage' hstorage
    split_ifs at hroom with hfull
    cases hroom
    exact ⟨hstorage, not_lt.mp hfull⟩

/-- A new storage has room. -/
theorem wp_renew (size : Nat) :
    wp (renew size) (fun storage memory' => Laid memory' buffers ∧ Grows memory memory' ∧
        memory'.pool.storage = some storage ∧
        (size : Int) ≤ (memory'.size storage : Int) - memory'.pool.position)
      (fun _ memory' => Unserved memory buffers memory') memory := by
  unfold renew allocate
  simp only [wp_bind, wp_get]
  refine wp_checkedBufferSize h fun value => ?_
  simp only [wp_modify, wp_pure, wp_ite]
  split_ifs with hsmall
  · exact ⟨h.extend value, grows_extend memory value⟩
  · refine ⟨h.renewed value, ?_, rfl, ?_⟩
    · exact ⟨(grows_extend memory value).count, (grows_extend memory value).size,
        (grows_extend memory value).byte⟩
    · have hsize : (memory.extend value).size memory.storages.length = value := by
        rw [Memory.size_extend, if_pos rfl]
      show (size : Int) ≤ ((memory.extend value).size memory.storages.length : Int) - (0 : Nat)
      rw [hsize]
      have hsmall : ¬ value < size := hsmall
      omega

theorem wp_pooledBuffer (size : Nat) :
    wp (pooledBuffer size) (fun buffer memory' => Served memory buffers size buffer memory')
      (fun _ memory' => Unserved memory buffers memory') memory := by
  unfold pooledBuffer
  simp only [wp_ite, wp_bind, wp_get]
  split_ifs with hnone hlarge
  · rw [hnone]
    exact wp_empty h
  · exact wp_allocate h size
  · cases hroom : memory.room size with
    | some storage =>
      obtain ⟨hstorage, hfits⟩ := room_spec hroom
      exact wp_cut h hstorage hfits
    | none =>
      simp only [wp_bind]
      refine wp_mono (wp_renew h size) ?_ fun _ _ hunserved => hunserved
      rintro storage memory' ⟨hlaid, hgrows, hstorage, hfits⟩
      refine wp_mono (wp_cut hlaid hstorage hfits) ?_ ?_
      · exact fun buffer memory'' hserved =>
          ⟨hserved.laid, hgrows.trans hserved.grows, hserved.length, hserved.zeros⟩
      · exact fun _ memory'' hunserved => ⟨hunserved.laid, hgrows.trans hunserved.grows⟩

theorem wp_bufferAllocUnsafe (size : Number) :
    wp (bufferAllocUnsafe size) (fun buffer memory' => ∃ length, Served memory buffers length buffer memory')
      (fun _ memory' => Unserved memory buffers memory') memory := by
  unfold bufferAllocUnsafe
  simp only [wp_bind]
  refine wp_checkedBufferSize h fun length => ?_
  exact wp_mono (wp_pooledBuffer h length) (fun _ _ hserved => ⟨length, hserved⟩) fun _ _ hunserved => hunserved

theorem wp_bufferAlloc (size : Number) :
    wp (bufferAlloc size) (fun buffer memory' => ∃ length, Served memory buffers length buffer memory')
      (fun _ memory' => Unserved memory buffers memory') memory := by
  unfold bufferAlloc
  simp only [wp_bind]
  refine wp_checkedBufferSize h fun length => ?_
  exact wp_mono (wp_allocate h length) (fun _ _ hserved => ⟨length, hserved⟩) fun _ _ hunserved => hunserved

end

/-! ## When an allocation returns -/

/-- A size that a buffer can have. -/
def ValidSize (size : Number) : Prop := ∃ value, size.between 0 9007199254740991 = some value

/-- The pool is asked for these bytes, has no room for them, and its size is none a storage can have. -/
structure Exhausted (memory : Memory) (size : Nat) : Prop where
  positive : size ≠ 0
  small : size < memory.pool.size.toUint32 / 2
  full : memory.room size = none
  invalid : ¬ValidSize memory.pool.size

/-- A storage of a valid size has room for what the pool is asked for. -/
theorem wp_renew_returns {memory : Memory} {size : Nat} (hsmall : size < memory.pool.size.toUint32 / 2) :
    wp (renew size) (fun _ _ => ValidSize memory.pool.size) (fun _ _ => ¬ValidSize memory.pool.size) memory := by
  unfold renew allocate checkedBufferSize
  simp only [wp_bind, wp_get]
  cases hbetween : memory.pool.size.between 0 9007199254740991 with
  | none =>
    rintro ⟨value, hvalue⟩
    rw [hbetween] at hvalue
    cases hvalue
  | some value =>
    obtain ⟨hfinite, hlow, -⟩ := Number.between_spec hbetween
    have hle := Number.toUint32_le hlow
    rw [hfinite] at hsmall
    have hroom : ¬(truncate value).toNat < size := by omega
    simp only [wp_modify, wp_pure, wp_ite]
    rw [if_neg hroom]
    exact ⟨value, hbetween⟩

theorem wp_pooledBuffer_returns (memory : Memory) (size : Nat) :
    wp (pooledBuffer size) (fun _ _ => ¬Exhausted memory size) (fun _ _ => ¬¬Exhausted memory size) memory := by
  unfold pooledBuffer
  simp only [wp_ite, wp_bind, wp_get]
  split_ifs with hnone hlarge
  · exact fun hexhausted => hexhausted.positive hnone
  · exact fun hexhausted => Nat.not_lt.mpr hlarge hexhausted.small
  · cases hroom : memory.room size with
    | some storage =>
      intro hexhausted
      cases hroom.symm.trans hexhausted.full
    | none =>
      simp only [wp_bind]
      refine wp_mono (wp_renew_returns (Nat.lt_of_not_le hlarge)) ?_ ?_
      · exact fun _ _ hvalid hexhausted => hexhausted.invalid hvalid
      · exact fun _ _ hinvalid hserved => hserved ⟨hnone, Nat.lt_of_not_le hlarge, hroom, hinvalid⟩

/-- The pool serves every length as long as its size is valid. -/
theorem pooledBuffer_returns (memory : Memory) (size : Nat) :
    returned (pooledBuffer size memory) = true ↔ ¬Exhausted memory size :=
  returned_iff (wp_pooledBuffer_returns memory size)

theorem bufferAllocUnsafe_returns (memory : Memory) (size : Number) :
    returned (bufferAllocUnsafe size memory) = true ↔
      ∃ value, size.between 0 9007199254740991 = some value ∧ ¬Exhausted memory (truncate value).toNat := by
  unfold bufferAllocUnsafe checkedBufferSize
  rw [bind_run]
  cases hbetween : size.between 0 9007199254740991 with
  | none => exact ⟨nofun, fun ⟨value, hvalue, _⟩ => by cases hvalue⟩
  | some value =>
    refine (pooledBuffer_returns memory (truncate value).toNat).trans ⟨fun h => ⟨value, rfl, h⟩, ?_⟩
    rintro ⟨value', hvalue, h⟩
    obtain rfl := Option.some.inj hvalue
    exact h

theorem bufferAlloc_returns (memory : Memory) (size : Number) :
    returned (bufferAlloc size memory) = true ↔ ValidSize size := by
  unfold bufferAlloc checkedBufferSize ValidSize
  rw [bind_run]
  cases hbetween : size.between 0 9007199254740991 with
  | none => exact ⟨nofun, fun ⟨value, hvalue⟩ => by cases hvalue⟩
  | some value => exact ⟨fun _ => ⟨value, rfl⟩, fun _ => rfl⟩

/-! ## Writing -/

/-- Nothing is written but bytes of the buffer. -/
structure Touches (buffer : Buffer) (memory memory' : Memory) : Prop where
  pool : memory'.pool = memory.pool
  count : memory'.storages.length = memory.storages.length
  size : ∀ storage, memory'.size storage = memory.size storage
  byte : ∀ storage index, ¬ (storage = buffer.storage ∧ buffer.offset ≤ index ∧
    index < buffer.offset + buffer.length) → memory'.byte storage index = memory.byte storage index

namespace Touches

variable {buffer : Buffer} {memory memory' memory'' : Memory}

theorem refl (buffer : Buffer) (memory : Memory) : Touches buffer memory memory :=
  ⟨rfl, rfl, fun _ => rfl, fun _ _ _ => rfl⟩

theorem trans (h : Touches buffer memory memory') (h' : Touches buffer memory' memory'') :
    Touches buffer memory memory'' where
  pool := h'.pool.trans h.pool
  count := h'.count.trans h.count
  size storage := (h'.size storage).trans (h.size storage)
  byte storage index hout := (h'.byte storage index hout).trans (h.byte storage index hout)

theorem put {index : Nat} (hindex : index < buffer.length) (value : UInt8) :
    Touches buffer memory (memory.put buffer.storage (buffer.offset + index) value) where
  pool := rfl
  count := Memory.put_storages_length ..
  size storage := Memory.size_put ..
  byte storage index' hout := by
    rw [Memory.byte_put]
    exact if_neg fun h => hout ⟨h.1, by omega, by omega⟩

/-- A buffer apart from it reads the same. -/
theorem bytes (h : Touches buffer memory memory') {other : Buffer} (hapart : Apart other buffer) :
    other.bytes memory' = other.bytes memory := by
  refine List.map_congr_left fun index hindex => h.byte _ _ ?_
  have hindex := List.mem_range.mp hindex
  rintro ⟨hstorage, hfirst, hlast⟩
  rcases hapart with hapart | hapart | hapart
  · exact hapart hstorage
  · omega
  · omega

theorem laid {buffers : List Buffer} (h : Touches buffer memory memory') (hlaid : Laid memory buffers)
    (hmem : buffer ∈ buffers) : Laid memory' buffers where
  placed other hother := by
    obtain ⟨hcount, hfits⟩ := hlaid.placed other hother
    exact ⟨h.count ▸ hcount, h.size other.storage ▸ hfits⟩
  apart := hlaid.apart
  pool storage hstorage := by
    rw [h.pool] at hstorage
    obtain ⟨hcount, hused, hzeros⟩ := hlaid.pool storage hstorage
    refine ⟨h.count ▸ hcount, h.pool ▸ hused, fun index hindex => ?_⟩
    rw [h.pool] at hindex
    rw [h.byte storage index fun hin => ?_]
    · exact hzeros index hindex
    · have := hused buffer hmem hin.1.symm
      omega

end Touches

section
variable {buffer : Buffer} {memory : Memory}

theorem wp_set (index : Nat) (value : UInt8) :
    wp (buffer.set index value) (fun _ memory' => Touches buffer memory memory')
      (fun _ memory' => Touches buffer memory memory') memory := by
  unfold Buffer.set
  rw [wp_ite]
  split_ifs with hout
  · exact .refl buffer memory
  · exact .put (not_le.mp hout) value

/-- As many bytes as there is room for are written without a raise. -/
theorem setAll_run {index : Nat} {values : List UInt8} (h : index + values.length ≤ buffer.length) :
    ∃ memory', buffer.setAll index values memory = .ok ⟨⟩ memory' ∧ Touches buffer memory memory' := by
  induction values generalizing index memory with
  | nil => exact ⟨memory, rfl, .refl buffer memory⟩
  | cons value values ih =>
    rw [List.length_cons] at h
    have hset : buffer.set index value memory =
        .ok ⟨⟩ (memory.put buffer.storage (buffer.offset + index) value) := by
      rw [Buffer.set, if_neg (by omega)]
      rfl
    obtain ⟨memory', hrest, htouches⟩ := @ih (memory.put buffer.storage (buffer.offset + index) value)
      (index + 1) (by omega)
    refine ⟨memory', ?_, Touches.trans (.put (by omega) value) htouches⟩
    rw [Buffer.setAll, bind_run, hset]
    exact hrest

/-- The bytes of a copy stay within the target. -/
theorem touches_moves {target source sourcePosition targetPosition count : Nat} {order : List Nat}
    (horder : ∀ index ∈ order, index < count) (htarget : target = buffer.storage)
    (hfirst : buffer.offset ≤ targetPosition) (hlast : targetPosition + count ≤ buffer.offset + buffer.length) :
    Touches buffer memory (order.foldl (moveByte source target sourcePosition targetPosition) memory) := by
  induction order generalizing memory with
  | nil => exact .refl buffer memory
  | cons index order ih =>
    have hindex := horder index List.mem_cons_self
    have hposition : targetPosition + index = buffer.offset + (targetPosition - buffer.offset + index) := by omega
    refine Touches.trans ?_ (ih fun index hmem => horder index (List.mem_cons_of_mem _ hmem))
    rw [moveByte, htarget, hposition]
    exact .put (by omega) _

theorem mem_order (source target : Buffer) (sourcePosition targetPosition count : Nat) :
    ∀ index ∈ source.order target sourcePosition targetPosition count, index < count := by
  unfold Buffer.order
  split <;> simp

theorem wp_copy (source target : Buffer) (targetStart sourceStart : Number) (sourceEnd : Option Number) :
    wp (source.copy target targetStart sourceStart sourceEnd) (fun _ memory' => Touches target memory memory')
      (fun _ memory' => Touches target memory memory') memory := by
  unfold Buffer.copy
  simp only [wp_bind, wp_ite, wp_modify, wp_pure]
  split_ifs with hrange hnothing hnothing
  · exact .refl target memory
  · exact .refl target memory
  · exact .refl target memory
  · refine touches_moves (mem_order _ _ _ _ _) rfl (Nat.le_add_right _ _) ?_
    push Not at hrange hnothing
    omega

end

/-! ## Concatenation -/

theorem copyOffset_natCast {n : Nat} (h : n ≤ 9007199254740991) : copyOffset (.finite n) = n := by
  have hlow : (-9007199254740991 : ℚ) ≤ n := le_trans (by norm_num) (Nat.cast_nonneg n)
  have hhigh : (n : ℚ) ≤ 9007199254740991 := by exact_mod_cast h
  rw [copyOffset, Number.between, if_pos ⟨hlow, hhigh⟩]
  exact Int.floor_natCast n

section
variable {memory : Memory}

/-- A copy of the whole buffer from `offset` on, as far as there is room. -/
theorem copy_run {value result : Buffer} {offset : Nat} (hoffset : offset < result.length)
    (hmax : result.length ≤ 9007199254740991) :
    value.copy result (.finite offset) 0 none memory =
      .ok (min value.length (result.length - offset))
        ((value.order result value.offset (result.offset + offset) (min value.length (result.length - offset))).foldl
          (moveByte value.storage result.storage value.offset (result.offset + offset)) memory) := by
  have hstart : copyOffset (0 : Number) = 0 := copyOffset_natCast (Nat.zero_le _)
  have htarget : copyOffset (.finite offset) = offset := copyOffset_natCast (by omega)
  have hcount : (min (min (value.length : Int) value.length - 0) (result.length - offset)).toNat =
      min value.length (result.length - offset) := by omega
  unfold Buffer.copy
  dsimp only
  rw [hstart, htarget, Buffer.copyEnd, if_neg (by omega)]
  by_cases hempty : value.length = 0
  · rw [if_pos (by omega), hempty, Nat.zero_min]
    unfold Buffer.order
    split <;> rfl
  · rw [if_neg (by omega), hcount]
    rfl

/-- Bytes moved in an order in which none is written before it is read. -/
theorem byte_ordered {source target sourcePosition targetPosition : Nat} {order : List Nat}
    (hfits : ∀ index ∈ order, targetPosition + index < memory.size target)
    (hread : order.Pairwise fun index later =>
      source ≠ target ∨ sourcePosition + later ≠ targetPosition + index) (storage index : Nat) :
    (order.foldl (moveByte source target sourcePosition targetPosition) memory).byte storage index =
      if storage = target ∧ targetPosition ≤ index ∧ index - targetPosition ∈ order then
        memory.byte source (sourcePosition + (index - targetPosition))
      else memory.byte storage index := by
  induction order generalizing memory with
  | nil => rw [if_neg (by simp)]; rfl
  | cons first order ih =>
    obtain ⟨hfirst, hread⟩ := List.pairwise_cons.mp hread
    have hsize := hfits first List.mem_cons_self
    rw [List.foldl_cons, ih (fun later hlater => ?_) hread]
    · by_cases hlater : storage = target ∧ targetPosition ≤ index ∧ index - targetPosition ∈ order
      · -- what is read later was not written yet
        rw [if_pos hlater, if_pos ⟨hlater.1, hlater.2.1, List.mem_cons_of_mem _ hlater.2.2⟩, moveByte,
          Memory.byte_put, if_neg]
        rintro ⟨hsame, hposition, -⟩
        rcases hfirst _ hlater.2.2 with hne | hne
        · exact hne hsame
        · exact hne hposition
      · rw [if_neg hlater, moveByte, Memory.byte_put]
        by_cases hwritten : storage = target ∧ index = targetPosition + first
        · obtain ⟨rfl, rfl⟩ := hwritten
          rw [if_pos ⟨rfl, rfl, hsize⟩, Nat.add_sub_cancel_left,
            if_pos ⟨rfl, Nat.le_add_right _ _, List.mem_cons_self⟩]
        · rw [if_neg fun h => hwritten ⟨h.1, h.2.1⟩, if_neg]
          rintro ⟨hstorage, hle, hmem⟩
          rcases List.mem_cons.mp hmem with hmem | hmem
          · exact hwritten ⟨hstorage, by omega⟩
          · exact hlater ⟨hstorage, hle, hmem⟩
    · rw [moveByte, Memory.size_put]
      exact hfits later (List.mem_cons_of_mem _ hlater)

/-- Bytes moved to a range apart from theirs. -/
theorem byte_moves {source target sourcePosition targetPosition : Nat} {count : Nat}
    (hapart : source ≠ target ∨ sourcePosition + count ≤ targetPosition ∨ targetPosition + count ≤ sourcePosition)
    (hfits : targetPosition + count ≤ memory.size target) (storage index : Nat) :
    ((List.range count).foldl (moveByte source target sourcePosition targetPosition) memory).byte storage index =
      if storage = target ∧ targetPosition ≤ index ∧ index < targetPosition + count then
        memory.byte source (sourcePosition + (index - targetPosition))
      else memory.byte storage index := by
  rw [byte_ordered]
  · refine if_congr ?_ rfl rfl
    rw [List.mem_range]
    omega
  · intro index hindex
    have := List.mem_range.mp hindex
    omega
  · refine List.Pairwise.imp_of_mem ?_ List.pairwise_lt_range
    intro index later hindex hlater hlt
    have := List.mem_range.mp hindex
    have := List.mem_range.mp hlater
    rcases hapart with hapart | hapart | hapart
    · exact .inl hapart
    · right; omega
    · right; omega

theorem Buffer.getD_bytes {buffer : Buffer} {index : Nat} (h : index < buffer.length) :
    (buffer.bytes memory).getD index 0 = memory.byte buffer.storage (buffer.offset + index) := by
  simp [Buffer.bytes, h]

/-- What a buffer and a joined list have to be for each other. -/
structure Joins (memory : Memory) (result : Buffer) (values : List Buffer) : Prop where
  fits : result.offset + result.length ≤ memory.size result.storage
  max : result.length ≤ 9007199254740991
  apart : ∀ value ∈ values, Apart value result

/-- The rest of a buffer of zeros is filled with the bytes of the list, as far as there is room. -/
theorem copyAll_run {result : Buffer} {values : List Buffer} (h : Joins memory result values) (offset : Nat)
    (hzeros : ∀ index, offset ≤ index → index < result.length →
      memory.byte result.storage (result.offset + index) = 0) :
    ∃ memory', copyAll result offset values memory = .ok ⟨⟩ memory' ∧ Touches result memory memory' ∧
      (∀ index < offset, memory'.byte result.storage (result.offset + index) =
        memory.byte result.storage (result.offset + index)) ∧
      ∀ index, offset ≤ index → index < result.length →
        memory'.byte result.storage (result.offset + index) =
          (values.flatMap (·.bytes memory)).getD (index - offset) 0 := by
  induction values generalizing memory offset with
  | nil =>
    refine ⟨memory, rfl, .refl result memory, fun _ _ => rfl, fun index hfirst hlast => ?_⟩
    rw [hzeros index hfirst hlast]
    rfl
  | cons value values ih =>
    by_cases hfull : result.length ≤ offset
    · refine ⟨memory, ?_, .refl result memory, fun _ _ => rfl, fun index hfirst hlast => by omega⟩
      rw [copyAll, if_pos hfull]
      rfl
    have hapart := h.apart value List.mem_cons_self
    have hrun := @copy_run memory value result offset (not_le.mp hfull) h.max
    generalize hcount : min value.length (result.length - offset) = count at hrun
    have hfits := h.fits
    have horder : value.order result value.offset (result.offset + offset) count = List.range count := by
      refine if_neg fun hbackwards => ?_
      rcases hapart with hstorage | hbefore | hafter
      · exact hstorage hbackwards.1
      · omega
      · omega
    rw [horder] at hrun
    have hmoves := @byte_moves memory value.storage result.storage value.offset (result.offset + offset) count
      (by rcases hapart with hstorage | hbefore | hafter
          · exact .inl hstorage
          · omega
          · omega) (by omega)
    have htouches : Touches result memory
        ((List.range count).foldl (moveByte value.storage result.storage value.offset (result.offset + offset)) memory) :=
      touches_moves (fun _ hindex => List.mem_range.mp hindex) rfl (by omega) (by omega)
    generalize (List.range count).foldl _ memory = middle at hrun hmoves htouches
    obtain ⟨memory', hrest, htouches', hbefore, hbehind⟩ := @ih middle
      ⟨htouches.size result.storage ▸ h.fits, h.max, fun other hother =>
        h.apart other (List.mem_cons_of_mem _ hother)⟩ (offset + count) (by
        intro index hfirst hlast
        rw [hmoves, if_neg (by omega)]
        exact hzeros index (by omega) hlast)
    refine ⟨memory', ?_, htouches.trans htouches', fun index hindex => ?_, fun index hfirst hlast => ?_⟩
    · rw [copyAll, if_neg hfull, bind_run, hrun]
      exact hrest
    · rw [hbefore index (by omega), hmoves, if_neg (by omega)]
    · have hsame : values.flatMap (·.bytes middle) = values.flatMap (·.bytes memory) :=
        List.flatMap_congr fun other hother => htouches.bytes (h.apart other (List.mem_cons_of_mem _ hother))
      have hlength := value.bytes_length memory
      rw [List.flatMap_cons]
      by_cases hin : index < offset + count
      · rw [hbefore index hin, hmoves, if_pos ⟨rfl, by omega, by omega⟩, List.getD_append _ _ _ _ (by omega),
          Buffer.getD_bytes (by omega)]
        congr 1
        omega
      · rw [hbehind index (by omega) hlast, hsame, List.getD_append_right _ _ _ _ (by omega)]
        congr 1
        omega

end

/-- The bytes of a list one behind the other, cut off or filled up with zeros. -/
def joined (memory : Memory) (values : List Buffer) (length : Nat) : List UInt8 :=
  ((values.flatMap fun value : Buffer => value.bytes memory) ++ List.replicate length 0).take length

/-- The length that is asked for, or that of all buffers of the list. -/
def Asks (memory : Memory) (values : List Buffer) (total : Option Number) (length : Nat) : Prop :=
  (total = some (.finite length) ∨ total = none ∧ length = (values.flatMap (·.bytes memory)).length) ∧
    length ≤ 9007199254740991

section
variable {memory : Memory}

theorem bytes_eq_joined {memory' : Memory} {result : Buffer} {values : List Buffer}
    (h : ∀ index, index < result.length → memory'.byte result.storage (result.offset + index) =
      (values.flatMap (·.bytes memory)).getD index 0) :
    result.bytes memory' = joined memory values result.length := by
  have hlength : (joined memory values result.length).length = result.length := by
    rw [joined, List.length_take, List.length_append, List.length_replicate]
    omega
  refine List.ext_getElem (by rw [Buffer.bytes_length, hlength]) fun index hindex hindex' => ?_
  have hin : index < result.length := by rwa [Buffer.bytes_length] at hindex
  have hleft : (result.bytes memory')[index] = (result.bytes memory').getD index 0 :=
    (List.getD_eq_getElem _ _ hindex).symm
  rw [hleft, Buffer.getD_bytes hin, h index hin]
  simp only [joined, List.getElem_take, List.getElem_append, List.getElem_replicate, List.getD_eq_getElem?_getD]
  split_ifs with hpiece
  · rw [List.getElem?_eq_getElem hpiece]
    rfl
  · rw [List.getElem?_eq_none (not_lt.mp hpiece)]
    rfl

/-- A natural number up to the maximum, or a raise. -/
theorem wp_checkedNatural {number : Number} {maximum : ℚ} {name : String} :
    wp (checkedInteger number maximum name)
      (fun value memory' => memory' = memory ∧ number = .finite value ∧ (value : ℚ) ≤ maximum)
      (fun _ memory' => memory' = memory ∧ ¬ ∃ value : Nat, number = .finite value ∧ (value : ℚ) ≤ maximum)
      memory := by
  unfold checkedInteger
  have hbounds : ∀ value : Nat, number = .finite value ∧ (value : ℚ) ≤ maximum →
      number.between 0 maximum = some (value : ℚ) := by
    rintro value ⟨rfl, hmaximum⟩
    exact if_pos ⟨Nat.cast_nonneg value, hmaximum⟩
  cases hbetween : number.between 0 maximum with
  | none =>
    refine ⟨rfl, fun ⟨value, hvalue⟩ => ?_⟩
    rw [hbounds value hvalue] at hbetween
    cases hbetween
  | some value =>
    obtain ⟨rfl, hlow, hhigh⟩ := Number.between_spec hbetween
    rw [wp_ite]
    split_ifs with hinteger
    · refine ⟨rfl, fun ⟨natural, hnatural⟩ => hinteger ?_⟩
      rw [hbounds natural hnatural] at hbetween
      obtain rfl : (natural : ℚ) = value := Option.some.inj hbetween
      rw [truncate_natCast]
      exact Int.cast_natCast natural
    · push Not at hinteger
      have hpos : 0 ≤ truncate value := by
        rw [truncate_of_nonneg hlow]
        exact Int.floor_nonneg.mpr hlow
      obtain ⟨natural, hnatural⟩ := Int.eq_ofNat_of_zero_le hpos
      rw [hnatural] at hinteger ⊢
      have hvalue : value = natural := by rw [← hinteger]; exact Int.cast_natCast natural
      rw [hvalue] at hhigh ⊢
      exact ⟨rfl, rfl, hhigh⟩

theorem wp_checkedInteger {total : Number} {values : List Buffer} {name : String} :
    wp (checkedInteger total 9007199254740991 name)
      (fun length memory' => memory' = memory ∧ Asks memory values (some total) length)
      (fun _ memory' => memory' = memory ∧ ¬ ∃ length, Asks memory values (some total) length) memory := by
  refine wp_mono wp_checkedNatural ?_ ?_
  · rintro length memory' ⟨hmemory, rfl, hmax⟩
    exact ⟨hmemory, .inl rfl, by exact_mod_cast hmax⟩
  · rintro error memory' ⟨hmemory, hnone⟩
    refine ⟨hmemory, fun ⟨length, hlength, hmax⟩ => hnone ⟨length, ?_, by exact_mod_cast hmax⟩⟩
    rcases hlength with hlength | ⟨hlength, -⟩
    · exact Option.some.inj hlength
    · cases hlength

theorem wp_totalLength {values : List Buffer} (length : Nat) (h : length ≤ 9007199254740991) :
    wp (totalLength length values)
      (fun total memory' => memory' = memory ∧ total = length + (values.flatMap (·.bytes memory)).length ∧
        total ≤ 9007199254740991)
      (fun _ memory' => memory' = memory ∧
        9007199254740991 < length + (values.flatMap (·.bytes memory)).length) memory := by
  induction values generalizing length with
  | nil => exact ⟨rfl, rfl, h⟩
  | cons value values ih =>
    unfold totalLength
    rw [wp_ite, List.flatMap_cons, List.length_append, Buffer.bytes_length]
    split_ifs with hlong
    · refine ⟨rfl, ?_⟩
      omega
    · rw [← Nat.add_assoc]
      exact ih (length + value.length) (by omega)

/-- The length of the result of a concatenation. -/
def concatLength (values : List Buffer) (total : Option Number) : Action Nat :=
  match total with
  | some total => checkedInteger total 9007199254740991 "totalLength"
  | none => totalLength 0 values

theorem wp_concatLength (values : List Buffer) (total : Option Number) :
    wp (concatLength values total) (fun length memory' => memory' = memory ∧ Asks memory values total length)
      (fun _ memory' => memory' = memory ∧ ¬ ∃ length, Asks memory values total length) memory := by
  cases total with
  | some total => exact wp_checkedInteger
  | none =>
    refine wp_mono (wp_totalLength 0 (Nat.zero_le _)) ?_ ?_
    · rintro length memory' ⟨rfl, hlength, hmax⟩
      rw [Nat.zero_add] at hlength
      exact ⟨rfl, .inr ⟨rfl, hlength⟩, hmax⟩
    · rintro error memory' ⟨rfl, hlong⟩
      rw [Nat.zero_add] at hlong
      refine ⟨rfl, ?_⟩
      rintro ⟨length, hlength | ⟨-, rfl⟩, hmax⟩
      · cases hlength
      · omega

theorem bufferConcat_eq {values : List Buffer} (hne : values ≠ []) (total : Option Number) :
    bufferConcat values total = do
      let length ← concatLength values total
      let result ← pooledBuffer length
      copyAll result 0 values
      return result := by
  unfold bufferConcat
  rw [if_neg hne]
  cases total <;> rfl

/-- A buffer that was handed out, perhaps written to; the others read as before. -/
structure Handed (memory : Memory) (buffers : List Buffer) (buffer : Buffer) (memory' : Memory) : Prop where
  laid : Laid memory' (buffers ++ [buffer])
  kept : ∀ other ∈ buffers, other.bytes memory' = other.bytes memory

theorem Grows.bytes {memory' : Memory} (h : Grows memory memory') (buffer : Buffer) :
    buffer.bytes memory' = buffer.bytes memory :=
  List.map_congr_left fun _ _ => h.byte _ _

theorem Laid.last_apart {buffers : List Buffer} {buffer : Buffer} (h : Laid memory (buffers ++ [buffer])) :
    ∀ other ∈ buffers, Apart other buffer := fun other hother =>
  (List.pairwise_append.mp h.apart).2.2 other hother buffer List.mem_cons_self

theorem Served.handed {buffers : List Buffer} {length : Nat} {buffer : Buffer} {memory' memory'' : Memory}
    (h : Served memory buffers length buffer memory') (htouches : Touches buffer memory' memory'') :
    Handed memory buffers buffer memory'' where
  laid := htouches.laid h.laid (by simp)
  kept other hother := (htouches.bytes (h.laid.last_apart other hother)).trans (h.grows.bytes other)

/-- At most one length is asked for. -/
theorem Asks.unique {values : List Buffer} {total : Option Number} {length other : Nat}
    (h : Asks memory values total length) (h' : Asks memory values total other) : length = other := by
  rcases h.1 with hlength | ⟨hnone, hlength⟩ <;> rcases h'.1 with hlength' | ⟨hnone', hlength'⟩
  · rw [hlength] at hlength'
    exact Nat.cast_injective (Number.finite.inj (Option.some.inj hlength'))
  · rw [hnone'] at hlength
    cases hlength
  · rw [hnone] at hlength'
    cases hlength'
  · exact hlength.trans hlength'.symm

/-- A concatenation hands out the bytes of its list; it raises for its length, or where the pool does. -/
theorem wp_bufferConcat {buffers values : List Buffer} (h : Laid memory buffers) (hvalues : values ⊆ buffers)
    (hne : values ≠ []) (total : Option Number) :
    wp (bufferConcat values total)
      (fun buffer memory' => Handed memory buffers buffer memory' ∧ Asks memory values total buffer.length ∧
        buffer.bytes memory' = joined memory values buffer.length)
      (fun error memory' => Unserved memory buffers memory' ∧ ∀ length, Asks memory values total length →
        pooledBuffer length memory = .error error memory') memory := by
  rw [bufferConcat_eq hne, wp_bind]
  refine wp_mono (wp_concatLength values total) ?_ ?_
  · rintro length memory' ⟨hmemory, hasks⟩
    obtain rfl : memory' = memory := hmemory
    rw [wp_bind]
    have hserved := wp_pooledBuffer h length
    cases hpool : pooledBuffer length memory' with
    | error error memory'' =>
      rw [wp_of_error hpool] at hserved ⊢
      refine ⟨hserved, fun other hother => ?_⟩
      obtain rfl := hasks.unique hother
      exact hpool
    | ok result middle =>
      rw [wp_of_ok hpool] at hserved ⊢
      have hplaced := hserved.laid.placed result (by simp)
      have hapart : ∀ value ∈ values, Apart value result := fun value hvalue =>
        hserved.laid.last_apart value (hvalues hvalue)
      obtain ⟨memory'', hcopied, htouches, -, hbytes⟩ := @copyAll_run middle result values
        ⟨hplaced.fits, hserved.length ▸ hasks.2, hapart⟩ 0 fun index _ hindex => hserved.zeros index hindex
      rw [wp_bind, wp_of_ok hcopied, wp_pure]
      have hsame : values.flatMap (·.bytes middle) = values.flatMap (·.bytes memory') :=
        List.flatMap_congr fun value _ => hserved.grows.bytes value
      refine ⟨hserved.handed htouches, hserved.length.symm ▸ hasks, bytes_eq_joined fun index hindex => ?_⟩
      rw [hbytes index (Nat.zero_le _) hindex, hsame, Nat.sub_zero]
  · rintro error memory' ⟨rfl, hnone⟩
    exact ⟨⟨h, .refl _⟩, fun length hlength => absurd ⟨length, hlength⟩ hnone⟩

/-- It returns exactly where a length is asked for and the pool serves it. -/
theorem bufferConcat_returns {buffers values : List Buffer} (h : Laid memory buffers) (hvalues : values ⊆ buffers)
    (hne : values ≠ []) (total : Option Number) :
    returned (bufferConcat values total memory) = true ↔
      ∃ length, Asks memory values total length ∧ ¬Exhausted memory length := by
  refine returned_iff ?_
  rw [bufferConcat_eq hne, wp_bind]
  refine wp_mono (wp_concatLength values total) ?_ ?_
  · rintro length memory' ⟨hmemory, hasks⟩
    obtain rfl : memory' = memory := hmemory
    rw [wp_bind]
    have hserved := wp_pooledBuffer h length
    refine wp_mono (wp_and hserved (wp_pooledBuffer_returns memory' length)) ?_ ?_
    · rintro result middle ⟨hserved, hroom⟩
      have hplaced := hserved.laid.placed result (by simp)
      obtain ⟨memory'', hcopied, -⟩ := @copyAll_run middle result values
        ⟨hplaced.fits, hserved.length ▸ hasks.2, fun value hvalue => hserved.laid.last_apart value (hvalues hvalue)⟩ 0
        fun index _ hindex => hserved.zeros index hindex
      rw [wp_bind, wp_of_ok hcopied, wp_pure]
      exact ⟨length, hasks, hroom⟩
    · rintro error memory'' ⟨-, hexhausted⟩ ⟨other, hother, hroom⟩
      obtain rfl := hasks.unique hother
      exact hexhausted hroom
  · rintro error memory' ⟨-, hnone⟩ ⟨length, hasks, -⟩
    exact hnone ⟨length, hasks⟩

end

/-! ## Runs -/

/-- A buffer that was handed out, and whether it has been written to. -/
structure Slot where
  buffer : Buffer
  written : Bool

structure Heap where
  memory : Memory := {}
  live : List Slot := []

inductive Operation
  | setPoolSize (size : Number)
  | alloc (size : Number)
  | allocUnsafe (size : Number)
  | pooledBytes (bytes : List UInt8)
  /-- `target` and `source` are places in the list of live buffers. -/
  | set (target index : Nat) (value : UInt8)
  | copy (source target : Nat) (targetStart sourceStart : Number) (sourceEnd : Option Number)
  | concat (values : List Nat) (total : Option Number)

namespace Heap

def buffers (heap : Heap) : List Buffer := heap.live.map Slot.buffer

/-- A buffer is handed out, unless the allocation raises. -/
def hand (heap : Heap) (written : Bool) (action : Action Buffer) : Heap :=
  match action heap.memory with
  | .ok buffer memory => { memory, live := heap.live ++ [⟨buffer, written⟩] }
  | .error _ memory => { heap with memory }

/-- A live buffer is written to. -/
def touch {α : Type} (heap : Heap) (target : Nat) (action : Action α) : Heap :=
  { memory := finalState (action heap.memory)
    live := heap.live.modify target fun slot => { slot with written := true } }

def step (heap : Heap) : Operation → Heap
  | .setPoolSize size => { heap with memory := finalState (setBufferPoolSize size heap.memory) }
  | .alloc size => heap.hand false (bufferAlloc size)
  | .allocUnsafe size => heap.hand false (bufferAllocUnsafe size)
  | .pooledBytes bytes => heap.hand true (Allocation.pooledBytes bytes)
  | .set target index value =>
    match heap.buffers[target]? with
    | some buffer => heap.touch target (buffer.set index value)
    | none => heap
  | .copy source target targetStart sourceStart sourceEnd =>
    match heap.buffers[source]?, heap.buffers[target]? with
    | some buffer, some other => heap.touch target (buffer.copy other targetStart sourceStart sourceEnd)
    | _, _ => heap
  | .concat values total =>
    heap.hand true (bufferConcat (values.filterMap fun value => heap.buffers[value]?) total)

end Heap

/-- The live buffers do not share bytes, and one reads as zeros until it is written to. -/
structure Isolated (heap : Heap) : Prop where
  laid : Laid heap.memory heap.buffers
  zeros : ∀ slot ∈ heap.live, slot.written = false →
    slot.buffer.bytes heap.memory = List.replicate slot.buffer.length 0

section
variable {heap : Heap}

theorem Isolated.start : Isolated {} where
  laid := ⟨nofun, List.Pairwise.nil, nofun⟩
  zeros := nofun

theorem Isolated.hand (h : Isolated heap) {written : Bool} {action : Action Buffer}
    (haction : wp action
      (fun buffer memory' => Handed heap.memory heap.buffers buffer memory' ∧
        (written = false → buffer.bytes memory' = List.replicate buffer.length 0))
      (fun _ memory' => Unserved heap.memory heap.buffers memory') heap.memory) :
    Isolated (heap.hand written action) := by
  unfold Heap.hand
  cases haction' : action heap.memory with
  | ok buffer memory =>
    obtain ⟨⟨hlaid, hkept⟩, hzeros⟩ := wp_ok haction haction'
    refine ⟨?_, fun slot hslot hwritten => ?_⟩
    · rw [Heap.buffers, List.map_append]
      exact hlaid
    · rcases List.mem_append.mp hslot with hslot | hslot
      · rw [hkept _ (List.mem_map_of_mem hslot)]
        exact h.zeros slot hslot hwritten
      · obtain rfl := List.mem_singleton.mp hslot
        exact hzeros hwritten
  | error error memory =>
    obtain ⟨hlaid, hgrows⟩ := wp_error haction haction'
    refine ⟨hlaid, fun slot hslot hwritten => ?_⟩
    rw [hgrows.bytes]
    exact h.zeros slot hslot hwritten

theorem Heap.buffers_touch {α : Type} (target : Nat) (action : Action α) :
    (heap.touch target action).buffers = heap.buffers := by
  unfold Heap.buffers Heap.touch
  refine List.ext_getElem? fun index => ?_
  rw [List.getElem?_map, List.getElem?_map, List.getElem?_modify]
  cases heap.live[index]? with
  | none => rfl
  | some slot => by_cases heq : target = index <;> simp [heq]

theorem Laid.apart_places {memory : Memory} {buffers : List Buffer} (h : Laid memory buffers) {i j : Nat}
    {buffer other : Buffer} (hne : i ≠ j) (hi : buffers[i]? = some buffer) (hj : buffers[j]? = some other) :
    Apart buffer other := by
  obtain ⟨hilt, rfl⟩ := List.getElem?_eq_some_iff.mp hi
  obtain ⟨hjlt, rfl⟩ := List.getElem?_eq_some_iff.mp hj
  have hpairwise := List.pairwise_iff_getElem.mp h.apart
  rcases Nat.lt_or_gt_of_ne hne with hlt | hlt
  · exact hpairwise i j hilt hjlt hlt
  · exact (hpairwise j i hjlt hilt hlt).symm

theorem Served.bytes {memory memory' : Memory} {buffers : List Buffer} {length : Nat} {buffer : Buffer}
    (h : Served memory buffers length buffer memory') :
    buffer.bytes memory' = List.replicate buffer.length 0 := by
  rw [Buffer.bytes, List.eq_replicate_iff]
  refine ⟨by simp, fun byte hbyte => ?_⟩
  obtain ⟨index, hindex, rfl⟩ := List.mem_map.mp hbyte
  exact h.zeros index (List.mem_range.mp hindex)

theorem wp_pooledBytes {memory : Memory} {buffers : List Buffer} (h : Laid memory buffers) (bytes : List UInt8) :
    wp (pooledBytes bytes)
      (fun buffer memory' => Handed memory buffers buffer memory' ∧
        (true = false → buffer.bytes memory' = List.replicate buffer.length 0))
      (fun _ memory' => Unserved memory buffers memory') memory := by
  unfold pooledBytes
  simp only [wp_bind, wp_pure]
  refine wp_mono (wp_pooledBuffer h bytes.length) (fun buffer memory' hserved => ?_) fun _ _ hunserved => hunserved
  have hfits : 0 + bytes.length ≤ buffer.length := by
    rw [hserved.length, Nat.zero_add]
  obtain ⟨memory'', hset, htouches⟩ := @setAll_run buffer memory' 0 bytes hfits
  rw [wp_of_ok hset]
  exact ⟨hserved.handed htouches, nofun⟩

theorem Isolated.touch {α : Type} (h : Isolated heap) {target : Nat} {buffer : Buffer}
    (htarget : heap.buffers[target]? = some buffer) {action : Action α}
    (haction : wp action (fun _ memory' => Touches buffer heap.memory memory')
      (fun _ memory' => Touches buffer heap.memory memory') heap.memory) :
    Isolated (heap.touch target action) := by
  have htouches : Touches buffer heap.memory (finalState (action heap.memory)) := wp_final haction
  have hmem : buffer ∈ heap.buffers := List.mem_of_getElem? htarget
  refine ⟨?_, fun slot hslot hwritten => ?_⟩
  · rw [Heap.buffers_touch]
    exact htouches.laid h.laid hmem
  · obtain ⟨index, hindex⟩ := List.mem_iff_getElem?.mp hslot
    rw [Heap.touch, List.getElem?_modify] at hindex
    obtain ⟨before, hbefore, hmark⟩ := Option.map_eq_some_iff.mp hindex
    split_ifs at hmark with heq
    · rw [← hmark] at hwritten
      cases hwritten
    · obtain rfl : before = slot := hmark
      have hplace : heap.buffers[index]? = some before.buffer := by
        rw [Heap.buffers, List.getElem?_map, hbefore]
        rfl
      have hapart := h.laid.apart_places (Ne.symm heq) hplace htarget
      exact (htouches.bytes hapart).trans (h.zeros before (List.mem_of_getElem? hbefore) hwritten)

theorem Isolated.step (h : Isolated heap) (operation : Operation) : Isolated (heap.step operation) := by
  cases operation with
  | setPoolSize size =>
    refine ⟨⟨fun buffer hbuffer => ?_, h.laid.apart, fun storage hstorage => ?_⟩, h.zeros⟩
    · exact ⟨(h.laid.placed buffer hbuffer).storage, (h.laid.placed buffer hbuffer).fits⟩
    · obtain ⟨hcount, hused, hzeros⟩ := h.laid.pool storage hstorage
      exact ⟨hcount, hused, hzeros⟩
  | alloc size =>
    refine h.hand (wp_mono (wp_bufferAlloc h.laid size) ?_ fun _ _ hunserved => hunserved)
    rintro buffer memory' ⟨length, hserved⟩
    exact ⟨hserved.handed (.refl _ _), fun _ => hserved.bytes⟩
  | allocUnsafe size =>
    refine h.hand (wp_mono (wp_bufferAllocUnsafe h.laid size) ?_ fun _ _ hunserved => hunserved)
    rintro buffer memory' ⟨length, hserved⟩
    exact ⟨hserved.handed (.refl _ _), fun _ => hserved.bytes⟩
  | pooledBytes bytes => exact h.hand (wp_pooledBytes h.laid bytes)
  | set target index value =>
    simp only [Heap.step]
    split
    · exact h.touch ‹_› (wp_set index value)
    · exact h
  | copy source target targetStart sourceStart sourceEnd =>
    simp only [Heap.step]
    split
    · exact h.touch ‹_› (wp_copy _ _ _ _ _)
    · exact h
  | concat values total =>
    have hvalues : values.filterMap (fun value => heap.buffers[value]?) ⊆ heap.buffers := by
      intro buffer hbuffer
      obtain ⟨value, -, hvalue⟩ := List.mem_filterMap.mp hbuffer
      exact List.mem_of_getElem? hvalue
    refine h.hand ?_
    by_cases hne : values.filterMap (fun value => heap.buffers[value]?) = []
    · rw [hne]
      refine wp_mono (wp_empty h.laid) ?_ fun _ _ hunserved => hunserved
      exact fun buffer memory' hserved => ⟨hserved.handed (.refl _ _), nofun⟩
    · refine wp_mono (wp_bufferConcat h.laid hvalues hne total) ?_ fun _ _ hunserved => hunserved.1
      exact fun buffer memory' hhanded => ⟨hhanded.1, nofun⟩

end

/-- In every run the live buffers are ranges of their storages without common bytes, and one reads
as zeros until it is written to. The pool serves what it is asked for unless it is exhausted, which it
never is with a valid size. A list of live buffers that is not empty is joined in as many bytes as are
asked for, where the pool serves them; an empty one makes an empty buffer. -/
theorem pool_isolated (operations : List Operation) :
    let heap := run Heap.step {} operations
    (∀ slot ∈ heap.live, Placed heap.memory slot.buffer ∧ (slot.written = false →
        slot.buffer.bytes heap.memory = List.replicate slot.buffer.length 0)) ∧
      heap.live.Pairwise (fun slot other => Apart slot.buffer other.buffer) ∧
      (∀ size, (returned (bufferAlloc size heap.memory) = true ↔ ValidSize size) ∧
        (returned (bufferAllocUnsafe size heap.memory) = true ↔
          ∃ value, size.between 0 9007199254740991 = some value ∧ ¬Exhausted heap.memory (truncate value).toNat)) ∧
      (∀ total, ∃ buffer memory', bufferConcat [] total heap.memory = .ok buffer memory' ∧
        buffer.length = 0 ∧ Laid memory' (heap.buffers ++ [buffer])) ∧
      ∀ values : List Buffer, values ⊆ heap.buffers → values ≠ [] → ∀ total,
        (returned (bufferConcat values total heap.memory) = true ↔
          ∃ length, Asks heap.memory values total length ∧ ¬Exhausted heap.memory length) ∧
        (∀ buffer memory', bufferConcat values total heap.memory = .ok buffer memory' →
          Asks heap.memory values total buffer.length ∧
            buffer.bytes memory' = joined heap.memory values buffer.length) ∧
        ∀ error memory', bufferConcat values total heap.memory = .error error memory' →
          ∀ length, Asks heap.memory values total length →
            pooledBuffer length heap.memory = .error error memory' := by
  intro heap
  have hisolated : Isolated heap :=
    run_preserves (fun _ operation h => h.step operation) .start operations
  refine ⟨fun slot hslot => ⟨?_, hisolated.zeros slot hslot⟩, ?_, fun size => ?_, fun total => ?_,
    fun values hvalues hne total => ?_⟩
  · exact hisolated.laid.placed slot.buffer (List.mem_map_of_mem hslot)
  · exact List.pairwise_map.mp hisolated.laid.apart
  · exact ⟨bufferAlloc_returns heap.memory size, bufferAllocUnsafe_returns heap.memory size⟩
  · exact ⟨_, _, rfl, rfl, (served_extend hisolated.laid 0).laid⟩
  · have hconcat := wp_bufferConcat hisolated.laid hvalues hne total
    exact ⟨bufferConcat_returns hisolated.laid hvalues hne total, fun buffer memory' hok => (wp_ok hconcat hok).2,
      fun error memory' herror => (wp_error hconcat herror).2⟩

/-- Two buffers from the pool, joined in six bytes. -/
theorem pool_isolated_joined :
    let heap := run Heap.step {} [.setPoolSize 64, .allocUnsafe 3, .pooledBytes [65, 66]]
    heap.live.Pairwise (fun slot other => Apart slot.buffer other.buffer) ∧
      ∃ buffer memory', bufferConcat [⟨0, 8, 2⟩, ⟨0, 0, 3⟩] (some 6) heap.memory = .ok buffer memory' ∧
        buffer.bytes memory' = [65, 66, 0, 0, 0, 0] := by
  intro heap
  obtain ⟨-, hapart, -, -, hconcat⟩ := pool_isolated [.setPoolSize 64, .allocUnsafe 3, .pooledBytes [65, 66]]
  have hlive : [⟨0, 8, 2⟩, ⟨0, 0, 3⟩] ⊆ heap.buffers := by decide +kernel
  obtain ⟨hreturns, hjoined, -⟩ := hconcat [⟨0, 8, 2⟩, ⟨0, 0, 3⟩] hlive (by decide) (some 6)
  have hroom : heap.memory.room 6 = some 0 := by decide +kernel
  obtain ⟨buffer, memory', hok⟩ := exists_of_returned (hreturns.mpr ⟨6, ⟨.inl rfl, by decide⟩, fun hexhausted => by
    cases hroom.symm.trans hexhausted.full⟩)
  obtain ⟨⟨hlength, -⟩, hbytes⟩ := hjoined buffer memory' hok
  have hlength : buffer.length = 6 := by
    rcases hlength with hlength | ⟨hnone, -⟩
    · exact (Nat.cast_injective (Number.finite.inj (Option.some.inj hlength))).symm
    · cases hnone
  refine ⟨hapart, buffer, memory', hok, hbytes.trans ?_⟩
  rw [hlength]
  decide +kernel

/-- No buffers make an empty buffer, whatever is asked for; and a pool of a negative size raises. -/
theorem pool_isolated_empty :
    (∃ buffer memory', bufferConcat [] (some 1) {} = .ok buffer memory' ∧
      buffer.bytes memory' ≠ joined {} [] 1) ∧
    ∃ error memory', bufferConcat [⟨0, 0, 1⟩] none
      (run Heap.step {} [.alloc 1, .setPoolSize (.finite (-1))]).memory = .error error memory' :=
  ⟨⟨_, _, rfl, by decide⟩, ⟨"Buffer size is outside the valid range"⟩, _, by rfl⟩

end TsonicNode.Allocation
