import Embr.Signals
import Embr.StaleRecord

/-!
# The record of a partial transfer

What `load` makes of the record a `save` leaves behind: all of it is read back,
and a part of it is no record at all. `save` truncates the old record before it
writes the new one, so an interrupted `save` can leave such a part.
-/

open Octets Interact
open Embr.System Embr.Protocol Embr.Reliable Embr.Signals
namespace Embr.RecordCodec

variable {net : Env Os} {E : Env Os} {fails : Prop} {s u : World} {out : Path}
  {fileHash : Hash} {n : UInt32} {cm : ChunkManager}

theorem loaded_eq {f g : Bytes} (hf : s.files (PartialFile.pathFor out) = some f)
    (hg : s.files out = some g) :
    loaded s.files out fileHash n =
      if f.take hashSize = fileHash.val ∧ g.length = n.toNat * chunkSize ∧
          hashSize + bitmapBytes n ≤ f.length then
        some (unpack n (slice f hashSize (bitmapBytes n))) else none := by
  rw [loaded, hf, hg]

theorem loaded_short {f : Bytes} (hf : s.files (PartialFile.pathFor out) = some f)
    (hshort : f.length < hashSize + bitmapBytes n) : loaded s.files out fileHash n = none := by
  rw [loaded, hf]
  cases s.files out with
  | none => rfl
  | some g => exact if_neg fun h => absurd h.2.2 (Nat.not_le.mpr hshort)

theorem loaded_other {f : Bytes} (hf : s.files (PartialFile.pathFor out) = some f)
    (hne : f.take hashSize ≠ fileHash.val) : loaded s.files out fileHash n = none := by
  rw [loaded, hf]
  cases s.files out with
  | none => rfl
  | some g => exact if_neg fun h => hne h.1

theorem load_reads (hE : Reads E fails) :
    Sat E (fun _ _ => True) (fun _ _ => fails) (PartialFile.load out fileHash n)
      (fun r u => Calm s u ∧ (r = loaded s.files out fileHash n ∨ fails ∧ r = none)) s := by
  refine sat_ask_bind.mpr ⟨trivial, fun r u hr => ?_⟩
  rcases hE.openRead _ _ _ _ hr with ⟨rfl, hsome, rfl⟩ | ⟨rfl, hwhy, hu⟩
  · obtain ⟨f, hf⟩ := Option.isSome_iff_exists.mp hsome
    have hcalm := (Calm.refl s).seek (PartialFile.pathFor out) 0
    have hcur : (s.seek (PartialFile.pathFor out) 0).cursor (PartialFile.pathFor out) = 0 :=
      Function.update_self ..
    rw [if_pos rfl]
    refine Sat.andThen (hE.read _ f hashSize _ hf (by rw [hcur]; exact Nat.zero_le _)) ?_
    intro r v hv
    have hcalm := hcalm.trans hv.calm
    cases r with
    | error e =>
      refine sat_pure.mpr ⟨trivial, hcalm, ?_⟩
      rcases hv.error e rfl with hfails | hshort
      · exact Or.inr ⟨hfails, rfl⟩
      · rw [hcur] at hshort
        exact Or.inl (loaded_short hf (by omega)).symm
    | ok storedHash =>
      obtain ⟨hlen, rfl, hpos⟩ := hv.ok _ rfl
      rw [hcur, Nat.zero_add] at hlen hpos
      rw [hcur]
      have htake : slice f 0 hashSize = f.take hashSize := rfl
      dsimp only
      rw [htake]
      by_cases hhash : f.take hashSize = fileHash.val
      · rw [if_neg (not_not.mpr hhash)]
        refine sat_ask_bind.mpr ⟨trivial, fun r w hr => ?_⟩
        rcases hE.stat _ _ _ _ hr with ⟨g, hg, rfl, rfl⟩ | ⟨rfl, hwhy, hw⟩
        · rw [hcalm.files] at hg
          dsimp only
          by_cases hsize : g.length = n.toNat * chunkSize
          · rw [if_neg (not_not.mpr hsize)]
            have hfw : w.files (PartialFile.pathFor out) = some f := by
              rw [hcalm.files]
              exact hf
            refine Sat.andThen (hE.read _ f _ _ hfw (by rw [hpos]; exact hlen)) ?_
            intro r x hx
            have hcalm := hcalm.trans hx.calm
            cases r with
            | error e =>
              refine sat_pure.mpr ⟨trivial, hcalm, ?_⟩
              rcases hx.error e rfl with hfails | hshort
              · exact Or.inr ⟨hfails, rfl⟩
              · rw [hpos] at hshort
                exact Or.inl (loaded_short hf hshort).symm
            | ok raw =>
              obtain ⟨hall, rfl, -⟩ := hx.ok _ rfl
              rw [hpos] at hall
              refine sat_pure.mpr ⟨trivial, hcalm, Or.inl ?_⟩
              rw [loaded_eq hf hg, if_pos ⟨hhash, hsize, hall⟩, hpos]
          · rw [if_pos hsize]
            refine sat_pure.mpr ⟨trivial, hcalm, Or.inl ?_⟩
            rw [loaded_eq hf hg, if_neg fun h => hsize h.2.1]
        · refine sat_pure.mpr ⟨trivial, hcalm.refused hw, ?_⟩
          rcases hwhy with hfails | hnone
          · exact Or.inr ⟨hfails, rfl⟩
          · rw [hcalm.files] at hnone
            refine Or.inl ?_
            rw [loaded, hf, hnone]
      · rw [if_pos hhash]
        exact sat_pure.mpr ⟨trivial, hcalm, Or.inl (loaded_other hf hhash).symm⟩
  · refine sat_pure.mpr ⟨trivial, (Calm.refl s).refused hu, ?_⟩
    rcases hwhy with hfails | hnone
    · exact Or.inr ⟨hfails, rfl⟩
    · refine Or.inl ?_
      rw [loaded, hnone]

theorem load_ends :
    Total (reliable net) (fun _ _ => True) (fun _ _ => True) (PartialFile.load out fileHash n) s := by
  have hpure : ∀ (r : Option ChunkManager) (u : World),
      Total (reliable net) (fun _ _ => True) (fun _ _ => True) (pure r) u :=
    fun _ _ => total_pure.mpr ⟨trivial, trivial⟩
  refine total_ask_bind.mpr ⟨trivial, ?_, fun r u hr => ?_⟩
  · cases hf : s.files (PartialFile.pathFor out) with
    | none => exact ⟨false, _, Or.inr ⟨rfl, Or.inr hf, 0, rfl⟩⟩
    | some f => exact ⟨true, _, Or.inl ⟨rfl, hf ▸ rfl, rfl⟩⟩
  rcases hr with ⟨rfl, hsome, rfl⟩ | ⟨rfl, -, -⟩
  · obtain ⟨f, hf⟩ := Option.isSome_iff_exists.mp hsome
    rw [if_pos rfl]
    refine Total.andThen (readExact_ends (f := f) hf) fun r u hu => ?_
    have hfu : u.files (PartialFile.pathFor out) = some f := by
      rw [hu]
      exact hf
    cases r with
    | error e => exact hpure _ _
    | ok storedHash =>
      dsimp only
      split_ifs
      · exact hpure _ _
      · refine total_ask_bind.mpr ⟨trivial, ?_, fun r v hr => ?_⟩
        · cases hg : u.files out with
          | none => exact ⟨none, _, Or.inr ⟨rfl, Or.inr hg, 0, rfl⟩⟩
          | some g => exact ⟨some g.length, _, Or.inl ⟨g, hg, rfl, rfl⟩⟩
        rcases hr with ⟨g, -, rfl, rfl⟩ | ⟨rfl, -, -⟩
        · dsimp only
          split_ifs
          · exact hpure _ _
          · refine Total.andThen (readExact_ends (f := f) hfu) fun r v _ => ?_
            cases r with
            | error e => exact hpure _ _
            | ok raw => exact hpure _ _
        · exact hpure _ _
  · exact hpure _ _

/-- What `load` answers in a store: always if no call fails, at worst nothing otherwise. -/
structure LoadsAs (out : Path) (fileHash : Hash) (n : UInt32) (s : World)
    (x : Option ChunkManager) : Prop where
  answers : ∀ net, Total (reliable net) (fun _ _ => True) (fun r _ => r = x)
    (PartialFile.load out fileHash n) s
  signals : ∀ net, Sat (signalled net) (fun _ _ => True) (fun _ _ => False)
    (PartialFile.load out fileHash n) (fun r _ => r = x) s
  atWorst : ∀ r t, Reaches rough (PartialFile.load out fileHash n, s) (.ret r, t) →
    r = x ∨ r = none

theorem loadsAs_loaded (s : World) :
    LoadsAs out fileHash n s (loaded s.files out fileHash n) where
  answers net := by
    have hsat : Sat (signalled net) _ _ (PartialFile.load out fileHash n) _ s :=
      load_reads reads_signalled
    replace hsat := hsat.env signalled_of_reliable
    refine (load_ends.and hsat).weaken fun r u h => ?_
    exact h.2.2.resolve_right fun h => h.1
  signals net := (load_reads reads_signalled).weaken fun r u h =>
    h.2.resolve_right fun h => h.1
  atWorst r t h := ((load_reads reads_rough).returned h).2.imp_right fun h => h.2

theorem LoadsAs.unique {x y : Option ChunkManager} (h : LoadsAs out fileHash n s x)
    (h' : LoadsAs out fileHash n s y) : x = y := by
  have hboth := (h.answers rough).and ((h'.signals rough).env signalled_of_reliable)
  obtain ⟨r, t, -, hr⟩ := hboth.returns
  exact hr.1.symm.trans hr.2

inductive Marked (n : UInt32) : ChunkManager → Prop where
  | new : Marked n (.new n)
  | done {cm cm' : ChunkManager} {i : ℕ} : Marked n cm → cm.markDone i = .ok cm' → Marked n cm'
  | todo {cm cm' : ChunkManager} {i : ℕ} : Marked n cm → cm.markTodo i = .ok cm' → Marked n cm'

theorem mark_length {what : String} {done : Bool} {cm' : ChunkManager} {i : ℕ}
    (h : ChunkManager.mark what done cm i = .ok cm') :
    cm'.bitmap.length = cm.bitmap.length := by
  rw [ChunkManager.mark] at h
  split_ifs at h
  cases h
  exact List.length_set

theorem Marked.length (h : Marked n cm) : cm.bitmap.length = n.toNat := by
  induction h with
  | new => exact List.length_replicate
  | done _ hmark ih => exact (mark_length hmark).trans ih
  | todo _ hmark ih => exact (mark_length hmark).trans ih

theorem bitmapBytes_ofNat {bitmap : List Bool} (h : bitmap.length = n.toNat) :
    (pack bitmap).length = bitmapBytes n := by
  rw [pack, List.length_map, List.length_range, h, UInt32.ofNat_toNat]

theorem recordOf_length {bitmap : List Bool} (h : bitmap.length = n.toNat) :
    (recordOf fileHash bitmap).length = hashSize + bitmapBytes n := by
  rw [recordOf, List.length_append, fileHash.property, bitmapBytes_ofNat h]

theorem loaded_record {bitmap : List Bool} {g : Bytes} (hn : n.toNat + 7 < 2 ^ 32)
    (hbitmap : bitmap.length = n.toNat)
    (hf : s.files (PartialFile.pathFor out) = some (recordOf fileHash bitmap))
    (hg : s.files out = some g) (hsize : g.length = n.toNat * chunkSize) :
    loaded s.files out fileHash n = some ⟨bitmap⟩ := by
  have hpack := bitmapBytes_ofNat hbitmap
  have hslice : slice (recordOf fileHash bitmap) hashSize (bitmapBytes n) = pack bitmap := by
    rw [recordOf, slice, List.drop_left' fileHash.property, ← hpack, List.take_length]
  have htake : (recordOf fileHash bitmap).take hashSize = fileHash.val := by
    rw [recordOf, List.take_left' fileHash.property]
  rw [loaded_eq hf hg, if_pos ⟨htake, hsize, (recordOf_length hbitmap).ge⟩, hslice,
    unpack_pack (by omega) hbitmap.symm]

theorem loaded_part {bitmap : List Bool} {g : Bytes} (hbitmap : bitmap.length = n.toNat)
    (hpart : g <+: recordOf fileHash bitmap) (hne : g ≠ recordOf fileHash bitmap)
    (hf : s.files (PartialFile.pathFor out) = some g) : loaded s.files out fileHash n = none := by
  apply loaded_short hf
  have hlen : (recordOf fileHash bitmap).length = _ := recordOf_length hbitmap
  rw [← hlen]
  refine lt_of_le_of_ne hpart.length_le fun hlen => hne (hpart.eq_of_length hlen)

/-- A saved bitmap is loaded again, and of a truncated record nothing else is. -/
theorem partial_record_codec (fileHash : Hash) (n : UInt32) (hn : n.toNat + 7 < 2 ^ 32)
    (cm : ChunkManager) (hcm : Marked n cm) (out : Path) :
    (∀ s t g, Reaches rough (PartialFile.save out fileHash cm, s) (.ret (), t) →
      t.files out = some g → g.length = n.toNat * chunkSize →
      LoadsAs out fileHash n t (some cm)) ∧
    ∀ s k r t, s.files (PartialFile.pathFor out) =
        some ((recordOf fileHash cm.bitmap).take k) →
      Reaches rough (PartialFile.load out fileHash n, s) (.ret r, t) → r = some cm ∨ r = none := by
  refine ⟨fun s t g hr hg hsize => ?_, fun s k r t hf hr => ?_⟩
  · have hsaved := save_sat.returned hr
    have hf : t.files (PartialFile.pathFor out) = some (recordOf fileHash cm.bitmap) := by
      rw [hsaved.files]
      exact Function.update_self ..
    have hloads : LoadsAs out fileHash n t _ := loadsAs_loaded t
    rwa [loaded_record hn hcm.length hf hg hsize] at hloads
  · have hloaded : loaded s.files out fileHash n = some cm ∨
        loaded s.files out fileHash n = none := by
      by_cases hne : (recordOf fileHash cm.bitmap).take k = recordOf fileHash cm.bitmap
      · rw [hne] at hf
        cases hg : s.files out with
        | none =>
          right
          rw [loaded, hf, hg]
        | some g =>
          by_cases hsize : g.length = n.toNat * chunkSize
          · exact Or.inl (loaded_record hn hcm.length hf hg hsize)
          · right
            rw [loaded_eq hf hg, if_neg fun h => hsize h.2.1]
      · exact Or.inr (loaded_part hcm.length (List.take_prefix _ _) hne hf)
    rcases (loadsAs_loaded s).atWorst r t hr with h | h
    · rw [h]
      exact hloaded
    · exact Or.inr h

/-- An output of three chunks, and its bitmap: all have come, and the second has failed. -/
def threeChunks : World :=
  .init fun path => if path = [97] then some (List.replicate (3 * chunkSize) 0) else none

def threeMarks : ChunkManager := ⟨[true, false, true]⟩

theorem threeMarks_marked : Marked 3 threeMarks :=
  .todo (i := 1) (.done (i := 2) (.done (i := 1) (.done (i := 0) .new rfl) rfl) rfl) rfl

/-- The record is saved, and it is loaded again, also if it has been cut off since. -/
theorem partial_record_codec_three : ∃ t,
    Reaches rough (PartialFile.save [97] zeroHash threeMarks, threeChunks) (.ret (), t) ∧
    LoadsAs [97] zeroHash 3 t (some threeMarks) ∧
    ∀ k r u, Reaches rough (PartialFile.load [97] zeroHash 3, t.store (PartialFile.pathFor [97])
      (some ((recordOf zeroHash threeMarks.bitmap).take k))) (.ret r, u) →
        r = some threeMarks ∨ r = none := by
  have hsave : Returns (Resume.hostile ∅) (PartialFile.save [97] zeroHash threeMarks)
      (fun _ t => t.files [97] = some (List.replicate (3 * chunkSize) 0)) threeChunks := by
    refine Resume.save_returns fun t ht _ => ?_
    rw [ht, Function.update_of_ne (PartialFile.pathFor_ne [97]).symm]
    simp only [threeChunks, World.init, if_pos]
  obtain ⟨_, t, hr, hfile⟩ := hsave.env fun _ _ _ _ h => h.1
  have hcodec := partial_record_codec zeroHash 3 (by decide) threeMarks threeMarks_marked [97]
  refine ⟨t, hr, hcodec.1 _ t _ hr hfile List.length_replicate, fun k r u hu => ?_⟩
  exact hcodec.2 _ k r u (World.store_self ..) hu

/-- The disk after a complete `save`. -/
def saved (out : Path) (fileHash : Hash) (bitmap : List Bool) (s : World) : World :=
  s.store (PartialFile.pathFor out) (some (recordOf fileHash bitmap))

theorem LoadsAs.congr {x : Option ChunkManager} (h : LoadsAs out fileHash n s x)
    (hfiles : u.files = s.files) : LoadsAs out fileHash n u x := by
  have hx : loaded s.files out fileHash n = x := (loadsAs_loaded s).unique h
  rw [← hx, ← hfiles]
  exact loadsAs_loaded u

/-- Wherever a `save` stops, the record is the old one, the new one or no record at all. -/
theorem save_interrupted (fileHash : Hash) (n : UInt32) (old new : ChunkManager)
    (hnew : new.bitmap.length = n.toNat) (out : Path)
    (s : World) (hs : s.files (PartialFile.pathFor out) = some (recordOf fileHash old.bitmap))
    (q : Prog Os Unit) (u : World)
    (h : Reaches rough (PartialFile.save out fileHash new, s) (q, u)) :
    (u.files (PartialFile.pathFor out) = some (recordOf fileHash old.bitmap) ∧
      ∀ x, LoadsAs out fileHash n s x → LoadsAs out fileHash n u x) ∨
    (u.files (PartialFile.pathFor out) = some (recordOf fileHash new.bitmap) ∧
      ∀ x, LoadsAs out fileHash n (saved out fileHash new.bitmap s) x →
        LoadsAs out fileHash n u x) ∨
    ((∃ g, g <+: recordOf fileHash new.bitmap ∧ g ≠ recordOf fileHash new.bitmap ∧
      u.files (PartialFile.pathFor out) = some g) ∧ LoadsAs out fileHash n u none) := by
  obtain ⟨hpoint, -⟩ := save_sat.visited h
  rcases hpoint with hcalm | ⟨g, hsaving⟩
  · refine Or.inl ⟨?_, fun x hx => hx.congr hcalm.files⟩
    rw [hcalm.files]
    exact hs
  · have hg : u.files (PartialFile.pathFor out) = some g := by
      rw [hsaving.files]
      exact Function.update_self ..
    by_cases hall : g = recordOf fileHash new.bitmap
    · refine Or.inr (Or.inl ⟨hall ▸ hg, fun x hx => hx.congr ?_⟩)
      rw [hsaving.files, hall]
      rfl
    · refine Or.inr (Or.inr ⟨⟨g, hsaving.part, hall, hg⟩, ?_⟩)
      have hloads : LoadsAs out fileHash n u _ := loadsAs_loaded u
      rwa [loaded_part hnew hsaving.part hall hg] at hloads

/-- An output of two chunks, the first of them done. -/
def halfDone : World :=
  .init fun path =>
    if path = [97] then some (List.replicate (2 * chunkSize) 0)
    else some (recordOf zeroHash [true, false])

theorem halfDone_record :
    halfDone.files (PartialFile.pathFor [97]) = some (recordOf zeroHash [true, false]) := by
  simp only [halfDone, World.init, if_neg (PartialFile.pathFor_ne [97])]

theorem halfDone_output : halfDone.files [97] = some (List.replicate (2 * chunkSize) 0) := by
  simp only [halfDone, World.init, if_pos]

/-- A save that stops right after the record is truncated. -/
theorem save_interrupted_halfDone :
    ∃ q u, Reaches rough (PartialFile.save [97] zeroHash ⟨[true, true]⟩, halfDone) (q, u) ∧
      u.files (PartialFile.pathFor [97]) = some [] ∧ LoadsAs [97] zeroHash 2 u none := by
  obtain ⟨q, u, hr, hempty⟩ : Passes rough (PartialFile.save [97] zeroHash ⟨[true, true]⟩)
      (fun _ u => u.files (PartialFile.pathFor [97]) = some []) halfDone :=
    .after (.ask (Or.inl ⟨rfl, rfl⟩)
      (.here (World.store_self halfDone (PartialFile.pathFor [97]) (some []))))
  have hne : ∀ bitmap, some (recordOf zeroHash bitmap) ≠ some [] := by
    intro bitmap h
    have hlen := congrArg List.length (Option.some.inj h)
    rw [recordOf, List.length_append, zeroHash.property] at hlen
    cases Nat.eq_zero_of_add_eq_zero_right hlen
  have hcases := save_interrupted zeroHash 2 ⟨[true, false]⟩ ⟨[true, true]⟩ rfl [97] halfDone
    halfDone_record _ u hr
  refine ⟨q, u, hr, hempty, ?_⟩
  rcases hcases with ⟨hold, -⟩ | ⟨hnew, -⟩ | ⟨-, hnone⟩
  · exact (hne _ (hold.symm.trans hempty)).elim
  · exact (hne _ (hnew.symm.trans hempty)).elim
  · exact hnone

/-- After the truncation neither bitmap is loaded. -/
theorem save_torn :
    LoadsAs [97] zeroHash 2 halfDone (some ⟨[true, false]⟩) ∧
    ∃ q u, Reaches rough (PartialFile.save [97] zeroHash ⟨[true, true]⟩, halfDone) (q, u) ∧
      ¬ LoadsAs [97] zeroHash 2 u (some ⟨[true, false]⟩) ∧
      ¬ LoadsAs [97] zeroHash 2 u (some ⟨[true, true]⟩) := by
  refine ⟨?_, ?_⟩
  · have hsize : (List.replicate (2 * chunkSize) (0 : UInt8)).length = 2 * chunkSize :=
      List.length_replicate
    have hold : loaded halfDone.files [97] zeroHash 2 = some ⟨[true, false]⟩ :=
      loaded_record (by decide) rfl halfDone_record halfDone_output hsize
    rw [← hold]
    exact loadsAs_loaded halfDone
  · refine Passes.after (.ask (Or.inl ⟨rfl, rfl⟩) (.here ?_))
    have hempty : ∀ u : World, u.files (PartialFile.pathFor [97]) = some [] →
        ∀ cm, ¬ LoadsAs [97] zeroHash 2 u (some cm) := by
      intro u hu cm hloads
      have hnone : loaded u.files [97] zeroHash 2 = none := loaded_short hu (by decide)
      have hx := (loadsAs_loaded u).unique hloads
      rw [hnone] at hx
      cases hx
    have hfile := World.store_self halfDone (PartialFile.pathFor [97]) (some [])
    refine ⟨hempty _ ?_ _, hempty _ ?_ _⟩
    · exact hfile
    · exact hfile

end Embr.RecordCodec
