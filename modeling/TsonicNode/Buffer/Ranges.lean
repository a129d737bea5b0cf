import TsonicNode.Buffer.Isolation

/-!
# Ranges of buffers

`Memory.overlay` stores bytes one behind the other; `copy_overlay` says that a
copy stores what the source read before it, in whatever way the two buffers
overlap. A `View` is what `subarray` and `slice` make of a buffer, with the
source's integers: each stays within its storage.
-/

namespace TsonicNode.Allocation

open TsonicNode.Lib

/-! ## Checked integers -/

section
variable {memory : Memory} {number : Number} {maximum : ℚ}

theorem checkedInteger_ok {value : Nat} (h : (value : ℚ) ≤ maximum) (name : String) :
    checkedInteger (.finite value) maximum name memory = .ok value memory := by
  have hspec := @wp_checkedNatural memory (.finite value) maximum name
  unfold wp at hspec
  cases hrun : checkedInteger (.finite value) maximum name memory with
  | ok result memory' =>
    rw [hrun] at hspec
    obtain ⟨rfl, hresult, -⟩ := hspec
    obtain rfl : value = result := by exact_mod_cast Number.finite.inj hresult
    rfl
  | error error memory' =>
    rw [hrun] at hspec
    exact absurd ⟨value, rfl, h⟩ hspec.2

theorem checkedInteger_error (h : ¬ ∃ value : Nat, number = .finite value ∧ (value : ℚ) ≤ maximum) (name : String) :
    ∃ error, checkedInteger number maximum name memory = .error error memory := by
  have hspec := @wp_checkedNatural memory number maximum name
  unfold wp at hspec
  cases hrun : checkedInteger number maximum name memory with
  | ok result memory' =>
    rw [hrun] at hspec
    exact absurd ⟨result, hspec.2⟩ h
  | error error memory' =>
    rw [hrun] at hspec
    obtain ⟨rfl, -⟩ := hspec
    exact ⟨error, rfl⟩

end

/-! ## Storing -/

namespace Memory

/-- Bytes one behind the other. -/
def overlay (memory : Memory) (storage position : Nat) (bytes : List UInt8) : Memory :=
  { memory with
    storages := memory.storages.modify storage fun list =>
      list.take position ++ bytes ++ list.drop (position + bytes.length) }

variable {memory memory' : Memory}

/-- A memory is its pool and the bytes of its storages. -/
theorem ext_bytes (hpool : memory'.pool = memory.pool)
    (hcount : memory'.storages.length = memory.storages.length)
    (hsize : ∀ storage, memory'.size storage = memory.size storage)
    (hbyte : ∀ storage index, memory'.byte storage index = memory.byte storage index) : memory' = memory := by
  obtain ⟨storages', pool'⟩ := memory'
  obtain ⟨storages, pool⟩ := memory
  obtain rfl : pool' = pool := hpool
  have hstorages : storages' = storages := by
    refine List.ext_getElem hcount fun storage hstorage' hstorage => ?_
    have hsize := hsize storage
    have hbyte := hbyte storage
    simp only [size, byte, List.getD_eq_getElem?_getD, List.getElem?_eq_getElem hstorage',
      List.getElem?_eq_getElem hstorage, Option.getD_some] at hsize hbyte
    refine List.ext_getElem hsize fun index hindex' hindex => ?_
    have hbyte := hbyte index
    rw [List.getElem?_eq_getElem hindex', List.getElem?_eq_getElem hindex] at hbyte
    exact hbyte
  rw [hstorages]

variable {storage position : Nat} {bytes : List UInt8}

theorem size_overlay (hfits : position + bytes.length ≤ memory.size storage) (storage' : Nat) :
    (memory.overlay storage position bytes).size storage' = memory.size storage' := by
  unfold size overlay at *
  simp only [List.getD_eq_getElem?_getD, List.getElem?_modify] at *
  by_cases hstorage : storage = storage'
  · subst hstorage
    cases hlist : memory.storages[storage]? with
    | none => rfl
    | some list =>
      rw [hlist] at hfits
      simp only [Option.getD_some] at hfits
      simp only [if_true, Option.map_eq_map, Option.map_some, Option.getD_some, List.length_append,
        List.length_take, List.length_drop]
      omega
  · simp [hstorage]

theorem byte_overlay (hfits : position + bytes.length ≤ memory.size storage) (storage' index : Nat) :
    (memory.overlay storage position bytes).byte storage' index =
      if storage' = storage ∧ position ≤ index ∧ index < position + bytes.length then
        bytes.getD (index - position) 0
      else memory.byte storage' index := by
  unfold size byte overlay at *
  simp only [List.getD_eq_getElem?_getD, List.getElem?_modify] at *
  by_cases hstorage : storage = storage'
  · subst hstorage
    cases hlist : memory.storages[storage]? with
    | none =>
      rw [hlist] at hfits
      have hempty : bytes.length = 0 := by
        simp only [Option.getD_none, List.length_nil] at hfits
        omega
      rw [if_neg (by omega)]
      rfl
    | some list =>
      rw [hlist] at hfits
      simp only [Option.getD_some] at hfits
      simp only [if_true, Option.map_eq_map, Option.map_some, Option.getD_some, true_and]
      rw [List.append_assoc, List.getElem?_append, List.length_take, Nat.min_eq_left (by omega)]
      by_cases hbefore : index < position
      · rw [if_pos hbefore, if_neg (by omega), List.getElem?_take, if_pos hbefore]
      · rw [if_neg hbefore, List.getElem?_append]
        by_cases hin : index - position < bytes.length
        · rw [if_pos hin, if_pos (by omega)]
        · rw [if_neg hin, if_neg (by omega), List.getElem?_drop]
          have hindex : position + bytes.length + (index - position - bytes.length) = index := by omega
          rw [hindex]
  · rw [if_neg fun h => hstorage h.1.symm]
    simp [hstorage]

@[simp] theorem overlay_nil (storage position : Nat) : memory.overlay storage position [] = memory := by
  have hsame : (fun list : List UInt8 => list.take position ++ [] ++ list.drop (position + 0)) = id := by
    funext list
    simp
  refine congrArg (Memory.mk · memory.pool) ?_
  rw [List.length_nil, hsame, List.modify_id]

/-- What a loop of `put` leaves. -/
theorem eq_overlay (hfits : position + bytes.length ≤ memory.size storage)
    (htouches : Touches ⟨storage, position, bytes.length⟩ memory memory')
    (hbyte : ∀ index < bytes.length, memory'.byte storage (position + index) = bytes.getD index 0) :
    memory' = memory.overlay storage position bytes := by
  refine ext_bytes htouches.pool ?_ (fun storage' => ?_) fun storage' index => ?_
  · rw [htouches.count]
    exact (List.length_modify ..).symm
  · rw [htouches.size, size_overlay hfits]
  · rw [byte_overlay hfits]
    by_cases hin : storage' = storage ∧ position ≤ index ∧ index < position + bytes.length
    · rw [if_pos hin, hin.1, ← hbyte _ (by omega)]
      congr 1
      omega
    · rw [if_neg hin]
      exact htouches.byte storage' index hin

/-- What was stored is read. -/
theorem bytes_overlay (hfits : position + bytes.length ≤ memory.size storage) :
    Buffer.bytes (memory.overlay storage position bytes) ⟨storage, position, bytes.length⟩ = bytes := by
  refine List.ext_getElem (Buffer.bytes_length _ _) fun index _ hindex => ?_
  simp only [Buffer.bytes, List.getElem_map, List.getElem_range]
  rw [byte_overlay hfits, if_pos ⟨rfl, by omega, by omega⟩, Nat.add_sub_cancel_left,
    List.getD_eq_getElem _ _ hindex]

theorem touches_overlay (hfits : position + bytes.length ≤ memory.size storage) :
    Touches ⟨storage, position, bytes.length⟩ memory (memory.overlay storage position bytes) where
  pool := rfl
  count := List.length_modify ..
  size := size_overlay hfits
  byte storage' index hout := by
    rw [byte_overlay hfits]
    exact if_neg hout

end Memory

/-- One byte of a loop that stores. -/
def storeByte (storage position : Nat) (value : Nat → UInt8) (memory : Memory) (index : Nat) : Memory :=
  memory.put storage (position + index) (value index)

section
variable {memory : Memory} {storage position : Nat}

theorem touches_stores {value : Nat → UInt8} {count : Nat} {order : List Nat} (h : ∀ index ∈ order, index < count) :
    Touches ⟨storage, position, count⟩ memory (order.foldl (storeByte storage position value) memory) := by
  induction order generalizing memory with
  | nil => exact .refl _ memory
  | cons index order ih =>
    have hfirst := h index List.mem_cons_self
    refine Touches.trans ?_ (ih fun later hlater => h later (List.mem_cons_of_mem _ hlater))
    exact @Touches.put ⟨storage, position, count⟩ memory index hfirst _

theorem byte_stores {value : Nat → UInt8} {count : Nat} (hfits : position + count ≤ memory.size storage) :
    ∀ index < count,
      ((List.range count).foldl (storeByte storage position value) memory).byte storage (position + index) =
        value index := by
  induction count with
  | zero => intro index hindex; omega
  | succ count ih =>
    intro index hindex
    have hsize : ((List.range count).foldl (storeByte storage position value) memory).size storage =
        memory.size storage :=
      (@touches_stores memory storage position value count _ fun _ hindex => List.mem_range.mp hindex).size storage
    rw [List.range_succ, List.foldl_append, List.foldl_cons, List.foldl_nil, storeByte, Memory.byte_put]
    by_cases hlast : index = count
    · subst hlast
      rw [if_pos ⟨rfl, rfl, by omega⟩]
    · rw [if_neg (by omega)]
      exact ih (by omega) index (by omega)

/-- A loop that stores one byte behind the other. -/
theorem stores_overlay {value : Nat → UInt8} {count : Nat} (hfits : position + count ≤ memory.size storage) :
    (List.range count).foldl (storeByte storage position value) memory =
      memory.overlay storage position ((List.range count).map value) := by
  have hlength : ((List.range count).map value).length = count := by simp
  refine Memory.eq_overlay (by rw [hlength]; exact hfits) ?_ fun index hindex => ?_
  · rw [hlength]
    exact touches_stores fun index hindex => List.mem_range.mp hindex
  · rw [hlength] at hindex
    rw [byte_stores hfits index hindex, List.getD_eq_getElem _ _ (by rw [hlength]; exact hindex)]
    simp

end

/-! ## Copies -/

theorem Placed.bytes_drop {memory : Memory} {buffer : Buffer} {first count index : Nat}
    (hcount : first + count ≤ buffer.length) (hindex : index < count) :
    (((buffer.bytes memory).drop first).take count).getD index 0 =
      memory.byte buffer.storage (buffer.offset + first + index) := by
  simp only [List.getD_eq_getElem?_getD]
  rw [List.getElem?_take, if_pos hindex, List.getElem?_drop, ← List.getD_eq_getElem?_getD,
    Buffer.getD_bytes (by omega), Nat.add_assoc]

section
variable {memory : Memory} {source target : Buffer}

/-- No byte is written before it is read. -/
theorem order_reads {sourcePosition targetPosition count : Nat} :
    (source.order target sourcePosition targetPosition count).Pairwise fun index later =>
      source.storage ≠ target.storage ∨ sourcePosition + later ≠ targetPosition + index := by
  unfold Buffer.order
  split_ifs with hover
  · rw [List.pairwise_reverse]
    refine List.pairwise_lt_range.imp fun hlt => ?_
    right
    omega
  · refine List.pairwise_lt_range.imp_of_mem fun {index later} hindex hlater hlt => ?_
    have hlast := List.mem_range.mp hlater
    by_cases hstorage : source.storage = target.storage
    · right
      intro hposition
      exact hover ⟨hstorage, by omega, by omega⟩
    · exact .inl hstorage

theorem mem_order_iff {sourcePosition targetPosition count index : Nat} :
    index ∈ source.order target sourcePosition targetPosition count ↔ index < count := by
  unfold Buffer.order
  split_ifs <;> simp

/-- A copy is a store of what the source read before it. -/
theorem moves_overlay {first position count : Nat} (hread : first + count ≤ source.length)
    (hfits : position + count ≤ target.length) (htarget : Placed memory target) :
    (source.order target (source.offset + first) (target.offset + position) count).foldl
        (moveByte source.storage target.storage (source.offset + first) (target.offset + position)) memory =
      memory.overlay target.storage (target.offset + position) (((source.bytes memory).drop first).take count) := by
  have hlength : (((source.bytes memory).drop first).take count).length = count := by
    rw [List.length_take, List.length_drop, Buffer.bytes_length]
    omega
  have hroom : target.offset + position + count ≤ memory.size target.storage := by
    have := htarget.fits
    omega
  refine Memory.eq_overlay (by rw [hlength]; exact hroom) ?_ fun index hindex => ?_
  · rw [hlength]
    exact touches_moves (fun index hindex => mem_order_iff.mp hindex) rfl (Nat.le_refl _) (Nat.le_refl _)
  · rw [hlength] at hindex
    rw [byte_ordered (fun index hindex => ?_) order_reads, if_pos, Placed.bytes_drop hread hindex,
      Nat.add_sub_cancel_left]
    · refine ⟨rfl, Nat.le_add_right _ _, ?_⟩
      rw [Nat.add_sub_cancel_left, mem_order_iff]
      exact hindex
    · have := mem_order_iff.mp hindex
      omega

/-- How many bytes a copy is for, from `first` up to `last` and from `start` on. -/
def Buffer.clipped (source target : Buffer) (start first last : Int) : Nat :=
  (min (min last source.length - first) (target.length - start)).toNat

/-- What a copy does: it raises on offsets out of range, or it stores. -/
theorem copy_overlay (htarget : Placed memory target) (targetStart sourceStart : Number)
    (sourceEnd : Option Number) :
    source.copy target targetStart sourceStart sourceEnd memory =
      let first := copyOffset sourceStart
      let last := source.copyEnd sourceEnd
      let start := copyOffset targetStart
      if first < 0 ∨ first > source.length ∨ last < 0 ∨ start < 0 then
        .error ⟨"Buffer copy offset is outside the valid range"⟩ memory
      else
        let count := source.clipped target start first last
        .ok count (memory.overlay target.storage (target.offset + start.toNat)
          (((source.bytes memory).drop first.toNat).take count)) := by
  unfold Buffer.copy
  dsimp only
  generalize copyOffset sourceStart = first
  generalize source.copyEnd sourceEnd = last
  generalize copyOffset targetStart = start
  by_cases hraise : first < 0 ∨ first > source.length ∨ last < 0 ∨ start < 0
  · rw [if_pos hraise, if_pos hraise]
    rfl
  · rw [if_neg hraise, if_neg hraise]
    by_cases hnone : start ≥ target.length ∨ first ≥ last
    · have hcount : source.clipped target start first last = 0 := by
        unfold Buffer.clipped
        omega
      rw [if_pos hnone, hcount, List.take_zero, Memory.overlay_nil]
      rfl
    · rw [if_neg hnone, ← moves_overlay (by unfold Buffer.clipped; omega) (by unfold Buffer.clipped; omega) htarget]
      rfl

end

/-! ## Views -/

def sliceOffset (value : Number) (length : Int) : Int :=
  match value with
  | .nan => 0
  | .infinity negative => if negative then 0 else length
  | .finite value =>
    if value ≤ -length then 0
    else if value ≥ length then length
    else
      let index := truncate value
      if index < 0 then length + index else index

theorem sliceOffset_bounds (value : Number) {length : Int} (h : 0 ≤ length) :
    0 ≤ sliceOffset value length ∧ sliceOffset value length ≤ length := by
  unfold sliceOffset
  cases value with
  | nan => exact ⟨le_rfl, h⟩
  | infinity negative => cases negative <;> simp [h]
  | finite value =>
    dsimp only
    split_ifs with hlow hhigh hnegative
    · exact ⟨le_rfl, h⟩
    · exact ⟨h, le_rfl⟩
    · have hle : -length ≤ truncate value := by
        have := truncate_le (not_le.mp hlow).le
        rwa [← Int.cast_neg, truncate_intCast] at this
      omega
    · have hle : truncate value ≤ length := by
        have := truncate_le (not_le.mp hhigh).le
        rwa [truncate_intCast] at this
      omega

/-- What `subarray` returns, with the integers of the source. -/
structure View where
  storage : Nat
  offset : Int
  length : Int

def Buffer.view (buffer : Buffer) : View := ⟨buffer.storage, buffer.offset, buffer.length⟩

namespace View

/-- Where a view ends, of the whole view at its length. -/
def sliceEnd (view : View) : Option Number → Int
  | some stop => sliceOffset stop view.length
  | none => view.length

def subarray (view : View) (start : Number) (stop : Option Number) : View :=
  let boundedStart := sliceOffset start view.length
  let boundedEnd := view.sliceEnd stop
  let boundedEnd := if boundedEnd < boundedStart then boundedStart else boundedEnd
  ⟨view.storage, view.offset + boundedStart, boundedEnd - boundedStart⟩

def slice (view : View) (start : Number) (stop : Option Number) : View := view.subarray start stop

/-- What is made of a buffer by one call after the other. -/
inductive Of (buffer : Buffer) : View → Prop
  | self : Of buffer buffer.view
  | subarray {view : View} (start : Number) (stop : Option Number) : Of buffer view →
      Of buffer (view.subarray start stop)
  | slice {view : View} (start : Number) (stop : Option Number) : Of buffer view → Of buffer (view.slice start stop)

/-- A range of a buffer. -/
structure Within (buffer : Buffer) (view : View) : Prop where
  storage : view.storage = buffer.storage
  first : buffer.offset ≤ view.offset
  length : 0 ≤ view.length
  last : view.offset + view.length ≤ buffer.offset + buffer.length

theorem Within.subarray {buffer : Buffer} {view : View} (h : Within buffer view) (start : Number)
    (stop : Option Number) : Within buffer (view.subarray start stop) := by
  obtain ⟨hstorage, hfirst, hlength, hlast⟩ := h
  have hstart := sliceOffset_bounds start hlength
  have hstop : view.sliceEnd stop ≤ view.length := by
    cases stop with
    | none => exact le_rfl
    | some stop => exact (sliceOffset_bounds stop hlength).2
  unfold View.subarray
  dsimp only
  split_ifs with hempty
  · exact ⟨hstorage, by dsimp only; omega, by dsimp only; omega, by dsimp only; omega⟩
  · exact ⟨hstorage, by dsimp only; omega, by dsimp only; omega, by dsimp only; omega⟩

theorem Of.within {buffer : Buffer} {view : View} (h : Of buffer view) : Within buffer view := by
  induction h with
  | self => exact ⟨rfl, le_rfl, Int.natCast_nonneg _, le_rfl⟩
  | subarray start stop _ ih => exact ih.subarray start stop
  | slice start stop _ ih => exact ih.subarray start stop

/-- It is a buffer again. -/
theorem Within.buffer {memory : Memory} {buffer : Buffer} {view : View} (h : Within buffer view)
    (hplaced : Placed memory buffer) : ∃ part : Buffer, view = part.view ∧ Placed memory part := by
  obtain ⟨hstorage, hfirst, hlength, hlast⟩ := h
  obtain ⟨hcount, hfits⟩ := hplaced
  refine ⟨⟨view.storage, view.offset.toNat, view.length.toNat⟩, ?_, ?_, ?_⟩
  · rw [Buffer.view, Int.toNat_of_nonneg (by omega), Int.toNat_of_nonneg hlength]
  · rw [hstorage]
    exact hcount
  · dsimp only
    rw [hstorage]
    omega

end View

/-- Copies between buffers that may overlap, and the views that are made of a buffer. -/
theorem copy_views (memory : Memory) :
    (∀ source target : Buffer, Placed memory source → Placed memory target →
      ∀ (targetStart sourceStart : Number) (sourceEnd : Option Number),
        let first := copyOffset sourceStart
        let last := source.copyEnd sourceEnd
        let start := copyOffset targetStart
        let count := (min (min last source.length - first) (target.length - start)).toNat
        source.copy target targetStart sourceStart sourceEnd memory =
          if first < 0 ∨ first > source.length ∨ last < 0 ∨ start < 0 then
            .error ⟨"Buffer copy offset is outside the valid range"⟩ memory
          else
            .ok count (memory.overlay target.storage (target.offset + start.toNat)
              (((source.bytes memory).drop first.toNat).take count))) ∧
    ∀ (buffer : Buffer) (view : View), Placed memory buffer → View.Of buffer view →
      0 ≤ view.offset ∧ 0 ≤ view.length ∧ view.offset + view.length ≤ memory.size view.storage ∧
        ∃ part : Buffer, view = part.view ∧ Placed memory part := by
  refine ⟨fun source target _ htarget targetStart sourceStart sourceEnd => ?_, fun buffer view hplaced hview => ?_⟩
  · exact copy_overlay htarget targetStart sourceStart sourceEnd
  · obtain ⟨hstorage, hfirst, hlength, hlast⟩ := hview.within
    have hfits := hplaced.fits
    refine ⟨by omega, hlength, ?_, hview.within.buffer hplaced⟩
    rw [hstorage]
    omega

/-- Two bytes one place up, through the one they share. -/
theorem copy_views_overlapping :
    Buffer.copy ⟨0, 0, 2⟩ ⟨0, 1, 2⟩ 0 0 none { storages := [[1, 2, 3]] } =
      .ok 2 { storages := [[1, 1, 2]] } := by
  have hsource : Placed { storages := [[1, 2, 3]] } ⟨0, 0, 2⟩ := ⟨by decide, by decide⟩
  have htarget : Placed { storages := [[1, 2, 3]] } ⟨0, 1, 2⟩ := ⟨by decide, by decide⟩
  have hcopy := (copy_views { storages := [[1, 2, 3]] }).1 _ _ hsource htarget 0 0 none
  have hzero : copyOffset (0 : Number) = 0 := copyOffset_natCast (Nat.zero_le _)
  dsimp only at hcopy
  rw [hzero] at hcopy
  exact hcopy

end TsonicNode.Allocation
