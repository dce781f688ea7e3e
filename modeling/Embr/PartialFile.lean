import Embr.System
import Mathlib.Data.List.GetD
import Mathlib.Tactic.IntervalCases

/-!
# Chunk bitmaps and their record on disk

`core/chunk_manager.cpp`, `core/partial_file.cpp` and `util/exact_io.hpp`. The
only caller of `read_exact` catches what it throws, so here it answers the
exception as a value.
-/

open Octets Interact
open Embr.System Embr.Protocol
namespace Embr

structure ChunkManager where
  bitmap : List Bool
  deriving DecidableEq

namespace ChunkManager

def new (chunkCount : UInt32) : ChunkManager := ⟨List.replicate chunkCount.toNat false⟩

def mark (what : String) (done : Bool) (cm : ChunkManager) (chunkIndex : ℕ) :
    Except Exc ChunkManager :=
  if cm.bitmap.length ≤ chunkIndex then .error (.outOfRange what)
  else .ok ⟨cm.bitmap.set chunkIndex done⟩

def markDone := mark "ChunkManager::mark_done: Chunk index out of range" true

def markTodo := mark "ChunkManager::mark_todo: Chunk index out of range" false

def neededChunks (cm : ChunkManager) : List ℕ :=
  (List.range cm.bitmap.length).filter fun i => !cm.bitmap.getD i true

def allDone (cm : ChunkManager) : Bool := cm.bitmap.all id

def chunkCount (cm : ChunkManager) : UInt32 := UInt32.ofNat cm.bitmap.length

theorem mark_ok {what : String} {done : Bool} {cm : ChunkManager} {i : ℕ}
    (hi : i < cm.bitmap.length) : mark what done cm i = .ok ⟨cm.bitmap.set i done⟩ := by
  rw [mark, if_neg (Nat.not_le.mpr hi)]

theorem mem_neededChunks {cm : ChunkManager} {i : ℕ} :
    i ∈ cm.neededChunks ↔ cm.bitmap[i]? = some false := by
  rw [neededChunks, List.mem_filter, List.mem_range, List.getD_eq_getElem?_getD]
  by_cases hi : i < cm.bitmap.length
  · rw [List.getElem?_eq_getElem hi]
    simp [hi]
  · rw [List.getElem?_eq_none (Nat.not_lt.mp hi)]
    simp [hi]

theorem neededChunks_lt {cm : ChunkManager} {i : ℕ} (h : i ∈ cm.neededChunks) :
    i < cm.bitmap.length :=
  List.mem_range.mp (List.mem_of_mem_filter h)

theorem allDone_iff {cm : ChunkManager} :
    cm.allDone = true ↔ ∀ i < cm.bitmap.length, cm.bitmap[i]? = some true := by
  rw [allDone, List.all_eq_true]
  constructor
  · intro h i hi
    rw [List.getElem?_eq_getElem hi]
    exact congrArg some (h _ (List.getElem_mem hi))
  · intro h b hb
    obtain ⟨i, hi, rfl⟩ := List.getElem_of_mem hb
    have hs := h i hi
    rw [List.getElem?_eq_getElem hi] at hs
    exact Option.some.inj hs

end ChunkManager

def bitmapBytes (chunkCount : UInt32) : ℕ := ((chunkCount + 8 - 1) / 8).toNat

def packByte (bit : ℕ → Bool) : UInt8 :=
  (List.range 8).foldl (fun b k => if bit k then b ||| (1 <<< UInt8.ofNat k) else b) 0

def pack (bitmap : List Bool) : Bytes :=
  (List.range (bitmapBytes (UInt32.ofNat bitmap.length))).map fun j =>
    packByte fun k => bitmap.getD (8 * j + k) false

def testBit (raw : Bytes) (i : ℕ) : Bool :=
  (raw.getD (i / 8) 0 &&& (1 <<< UInt8.ofNat (i % 8))) ≠ 0

def unpack (chunkCount : UInt32) (raw : Bytes) : ChunkManager :=
  ⟨(List.range chunkCount.toNat).map (testBit raw)⟩

theorem bitmapBytes_eq {n : UInt32} (h : n.toNat + 7 < 2 ^ 32) :
    bitmapBytes n = (n.toNat + 7) / 8 := by
  have hsum : (n + 8 - 1).toNat = n.toNat + 7 := by
    rw [UInt32.toNat_sub, UInt32.toNat_add]
    have h8 : (8 : UInt32).toNat = 8 := rfl
    have h1 : (1 : UInt32).toNat = 1 := rfl
    omega
  rw [bitmapBytes, UInt32.toNat_div, hsum]
  rfl

theorem packByte_bit (bit : ℕ → Bool) {k : ℕ} (hk : k < 8) :
    decide ((packByte bit &&& (1 <<< UInt8.ofNat k)) ≠ 0) = bit k := by
  have h : ∀ b0 b1 b2 b3 b4 b5 b6 b7 : Bool, ∀ k : Fin 8,
      decide ((packByte (fun i => [b0, b1, b2, b3, b4, b5, b6, b7].getD i false) &&&
        (1 <<< UInt8.ofNat k.val)) ≠ 0) =
        [b0, b1, b2, b3, b4, b5, b6, b7].getD k.val false := by
    decide +kernel
  have hbit : ∀ i < 8, bit i = [bit 0, bit 1, bit 2, bit 3, bit 4, bit 5, bit 6, bit 7].getD i
      false := by
    intro i hi
    interval_cases i <;> rfl
  have hpack : packByte bit = packByte (fun i =>
      [bit 0, bit 1, bit 2, bit 3, bit 4, bit 5, bit 6, bit 7].getD i false) := by
    simp [packByte, List.range_succ]
  rw [hpack, h _ _ _ _ _ _ _ _ ⟨k, hk⟩, ← hbit k hk]

theorem pack_length {bitmap : List Bool} (h : bitmap.length + 7 < 2 ^ 32) :
    (pack bitmap).length = (bitmap.length + 7) / 8 := by
  have hn : (UInt32.ofNat bitmap.length).toNat = bitmap.length :=
    UInt32.toNat_ofNat_of_lt' (by
      change _ < 2 ^ 32
      omega)
  rw [pack, List.length_map, List.length_range, bitmapBytes_eq (by omega), hn]

theorem testBit_pack {bitmap : List Bool} (h : bitmap.length + 7 < 2 ^ 32) {i : ℕ}
    (hi : i < bitmap.length) : testBit (pack bitmap) i = bitmap.getD i false := by
  have hlen := pack_length h
  have hj : i / 8 < (pack bitmap).length := by omega
  have hbyte : (pack bitmap).getD (i / 8) 0 =
      packByte fun k => bitmap.getD (8 * (i / 8) + k) false := by
    rw [List.getD_eq_getElem _ _ hj]
    simp only [pack, List.getElem_map, List.getElem_range]
  rw [testBit, hbyte, packByte_bit _ (Nat.mod_lt _ (by omega)), Nat.div_add_mod]

theorem unpack_pack {bitmap : List Bool} (h : bitmap.length + 7 < 2 ^ 32) {n : UInt32}
    (hn : n.toNat = bitmap.length) : unpack n (pack bitmap) = ⟨bitmap⟩ := by
  rw [unpack, hn]
  congr 1
  apply List.ext_getElem
  · rw [List.length_map, List.length_range]
  · intro i hi hi'
    rw [List.getElem_map, List.getElem_range, testBit_pack h hi', List.getD_eq_getElem _ _ hi']

theorem testBit_of_le {a b : Bytes} (h : a <+: b) {i : ℕ} (hi : i / 8 < a.length) :
    testBit a i = testBit b i := by
  obtain ⟨r, rfl⟩ := h
  rw [testBit, testBit, List.getD_append _ _ _ _ hi]

theorem getElem?_unpack (n : UInt32) (raw : Bytes) (i : ℕ) :
    (unpack n raw).bitmap[i]? = if i < n.toNat then some (testBit raw i) else none := by
  rw [unpack, List.getElem?_map]
  split_ifs with hi
  · rw [List.getElem?_range hi]
    rfl
  · rw [List.getElem?_eq_none (by rw [List.length_range]; omega)]
    rfl

def writeExact (fd : Path) (buf : Bytes) : Prog Os Unit :=
  .repeatUntil (fun offset =>
    if 0 < buf.length - offset then do
      match ← sys (.write fd (buf.drop offset)) with
      | some n => pure (.inl (offset + n))
      | none => retry "fd_write_exact: write failed: " offset
    else pure (.inr ())) 0

def readExact (fd : Path) (len : ℕ) : Prog Os (Except Exc Bytes) :=
  .repeatUntil (fun buf =>
    if 0 < len - buf.length then do
      match ← sys (.read fd (len - buf.length)) with
      | some bs =>
        if bs.length = 0 then pure (.inr (.error (.runtimeError "fd_read_exact: unexpected EOF")))
        else pure (.inl (buf ++ bs))
      | none => do
        let s ← .get
        if s.errno = EINTR then pure (.inl buf)
        else pure (.inr (.error (.systemError "fd_read_exact: read failed: " s.errno)))
    else pure (.inr (.ok buf))) []

namespace PartialFile

def slash : UInt8 := 47
def dot : UInt8 := 46
def suffix : Bytes := ".embr.partial".toList.map fun c => UInt8.ofNat c.toNat

def pathFor (outputPath : Path) : Path :=
  let dir := (outputPath.reverse.dropWhile (· ≠ slash)).reverse
  let base := (outputPath.reverse.takeWhile (· ≠ slash)).reverse
  dir ++ [dot] ++ base ++ suffix

def load (outputPath : Path) (fileHash : Hash) (chunkCount : UInt32) :
    Prog Os (Option ChunkManager) := do
  let partialPath := pathFor outputPath
  let opened : Bool ← sys (.openRead partialPath)
  if opened then do
    match ← readExact partialPath hashSize with
    | .error _ => pure none
    | .ok storedHash =>
      if storedHash ≠ fileHash.val then pure none
      else do
        match ← sys (.stat outputPath) with
        | none => pure none
        | some size =>
          if size ≠ chunkCount.toNat * chunkSize then pure none
          else do
            match ← readExact partialPath (bitmapBytes chunkCount) with
            | .error _ => pure none
            | .ok raw => pure (some (unpack chunkCount raw))
  else pure none

def save (outputPath : Path) (fileHash : Hash) (chunkManager : ChunkManager) : Prog Os Unit := do
  let partialPath := pathFor outputPath
  let opened : Bool ← sys (.openTrunc partialPath)
  if opened then do
    writeExact partialPath fileHash.val
    writeExact partialPath (pack chunkManager.bitmap)
  else
    .raise (.runtimeError ("partial_file::save: failed to open for write: " ++ text partialPath))

def remove (outputPath : Path) : Prog Os Unit := sys (.unlink (pathFor outputPath))

theorem pathFor_ne (outputPath : Path) : pathFor outputPath ≠ outputPath := by
  intro h
  have hlen := congrArg List.length h
  have hsplit := congrArg List.length
    (List.takeWhile_append_dropWhile (p := (· ≠ slash)) (l := outputPath.reverse))
  have hsuffix : suffix.length = 13 := rfl
  simp only [pathFor, List.length_append, List.length_reverse, List.length_singleton] at hlen hsplit
  omega

end PartialFile

end Embr
