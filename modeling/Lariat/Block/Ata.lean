import Mathlib.Data.List.TakeWhile
import Lariat.Block.Cache

/-! Requests that the ATA driver breaks off: it reports the sectors done so far as a positive
number of bytes, which the block layer takes for a success. -/
namespace Lariat.Block

open List Nat

variable {s : State} {dev count stop : Nat} {lba : BitVec 64}

/-- The sectors of the chunks that completed. -/
def wholeChunks (stop : Nat) : Nat := dmaChunk*(stop / dmaChunk)

/-- The driver returns the size of the request, or of the chunks that completed. -/
theorem ataLoop_eq (fuel done : Nat) (hfuel : count ≤ done+fuel) (hdone : done ≤ count)
    (hstop : done ≤ stop) (hchunk : done = count ∨ dmaChunk ∣ done) :
    ataLoop stop count fuel done = if count ≤ stop then (count*512 : Int)
      else if wholeChunks stop = 0 then -1 else (wholeChunks stop*512 : Int) := by
  induction fuel generalizing done with
  | zero =>
    have hcount : count ≤ stop := by omega
    rw [ataLoop,if_pos hcount]
  | succ fuel ih =>
    rw [ataLoop]
    split
    · rename_i hle
      rw [if_pos (by omega)]
    rename_i hlt
    obtain ⟨q,hq⟩ := hchunk.resolve_left (by omega)
    split
    · rename_i hgo
      refine ih _ (by simp only [dmaChunk]; omega) (by omega) hgo ?_
      by_cases hlast : count-done ≤ dmaChunk
      · exact .inl (by omega)
      · refine .inr ⟨q+1,?_⟩
        rw [mul_succ]
        omega
    rename_i hno
    have hwhole : wholeChunks stop = done := by
      simp only [wholeChunks,dmaChunk] at hq hno ⊢
      omega
    have hshort : ¬ count ≤ stop := by
      omega
    rw [if_neg hshort,hwhole]

theorem ataTransfer_result (stop count : Nat) :
    (ataTransfer stop count).result = if count ≤ stop then (count*512 : Int)
      else if wholeChunks stop = 0 then -1 else (wholeChunks stop*512 : Int) :=
  ataLoop_eq count 0 (Nat.le_add_left ..) (Nat.zero_le _) (Nat.zero_le _) (.inr (Nat.dvd_zero _))

theorem toInt_neg_one : toInt (-1) < 0 := by decide

/-! ### Writes -/

/-- A write through the cache is sound: success means that all sectors were written, and the
cache agrees with the device afterwards. -/
def WriteSound (dev : Nat) (lba : BitVec 64) (data : List Sector) (stop : Nat) (s : State) : Prop :=
  ((blockWrite (fun _ => {}) dev lba data (ataTransfer stop) s).1 = 0 → data.length ≤ stop) ∧
    Coherent (blockWrite (fun _ => {}) dev lba data (ataTransfer stop) s).2

/-- A write is sound in every state exactly where the drive writes all sectors and the number
of bytes fits an `int`, or where it writes none. -/
theorem writeSound_iff (dev : Nat) (lba : BitVec 64) (n stop : Nat) :
    (∀ s data, Coherent s → data.length = n → WriteSound dev lba data stop s) ↔
      stop = 0 ∨ (n ≤ stop ∧ 0 ≤ toInt (n*512)) := by
  constructor
  · intro h
    by_contra hno
    obtain ⟨h0,hfit⟩ := not_or.mp hno
    have hn : 0 < n := by
      refine Nat.pos_of_ne_zero fun hn => hfit ?_
      subst hn
      exact ⟨Nat.zero_le _,by decide⟩
    obtain ⟨hdone,hcoh⟩ := h (cachedZero dev lba) (List.replicate n ones)
      (cachedZero_coherent dev lba) length_replicate
    by_cases hneg : toInt (ataTransfer stop n).result < 0
    · exact refused_write_stale dev lba hn (Nat.pos_of_ne_zero h0) hneg hcoh
    · rw [blockWrite_eq,length_replicate,if_neg hneg] at hdone
      have hle : n ≤ stop := hdone rfl
      rw [ataTransfer_result,if_pos hle] at hneg
      exact hfit ⟨hle,Int.not_lt.mp hneg⟩
  · rintro hcond s data hs rfl
    have hres := ataTransfer_result stop data.length
    rcases hcond with rfl | ⟨hle,hfit⟩
    · -- nothing was written; only an empty request succeeds
      by_cases hempty : data = []
      · subst hempty
        refine ⟨fun _ => le_refl _,?_⟩
        rw [blockWrite_eq]
        split <;> exact hs
      have hlen : ¬ data.length ≤ 0 := fun h => hempty (length_eq_zero_iff.mp (le_zero.mp h))
      have hwhole : wholeChunks 0 = 0 := rfl
      rw [if_neg hlen,if_pos hwhole] at hres
      have hneg : toInt (ataTransfer 0 data.length).result < 0 := by
        rw [hres]
        exact toInt_neg_one
      rw [WriteSound,blockWrite_eq,if_pos hneg]
      exact ⟨fun h => absurd h neg_one_ne_zero,hs⟩
    · rw [if_pos hle] at hres
      have hnn : ¬ toInt (ataTransfer stop data.length).result < 0 := by
        rw [hres]
        exact Int.not_lt.mpr hfit
      have htake : data.take (ataTransfer stop data.length).moved = data :=
        take_of_length_le hle
      rw [WriteSound,blockWrite_eq,if_neg hnn,htake]
      exact ⟨fun _ => hle,hs.store⟩

/-! ### Reads -/

/-- A read through the cache is sound: success means that the buffer holds what the device
holds, and so does the cache afterwards. -/
def ReadSound (dev : Nat) (lba : BitVec 64) (count : Nat) (out : Nat → Sector) (stop : Nat)
    (s : State) : Prop :=
  ReadOk s.disk dev lba count
    (blockRead (fun _ => {}) dev lba count out (fun _ => ataTransfer stop) s)

theorem missRun_blank (hcount : 0 < count) : missRun blockInit dev lba 0 count = count := by
  have hall : ∀ k ∈ List.range (count-0-1),
      (blockInit.find dev (lba+.ofNat 64 (0+1+k))).isNone = true := fun k _ => by
    rw [Cache.blockInit_find]
    rfl
  rw [missRun,takeWhile_eq_self_iff.mpr hall,length_range]
  omega

/-- A read of a blank device that breaks off behind the first chunk succeeds, with the rest of
the buffer as it was. -/
theorem shortRead_returns (dev : Nat) (lba : BitVec 64) (out : Nat → Sector) (hchunk : dmaChunk ≤ stop) (hstop : stop < count)
    (hfit : 0 ≤ toInt (wholeChunks stop*512)) :
    (blockRead (fun _ => {}) dev lba count out (fun _ => ataTransfer stop)
      ⟨fun _ _ => zeros,blockInit⟩).1 = 0 ∧
    (blockRead (fun _ => {}) dev lba count out (fun _ => ataTransfer stop)
      ⟨fun _ _ => zeros,blockInit⟩).2.1 stop = out stop := by
  obtain ⟨n,rfl⟩ := Nat.exists_eq_succ_of_ne_zero (Nat.ne_of_gt (Nat.zero_lt_of_lt hstop))
  have hwhole : ¬ wholeChunks stop = 0 := by
    simp only [wholeChunks,dmaChunk] at hchunk ⊢
    omega
  have hres := ataTransfer_result stop (n+1)
  rw [if_neg (not_le.mpr hstop),if_neg hwhole] at hres
  have hnn : ¬ toInt (ataTransfer stop (n+1)).result < 0 := by
    rw [hres]
    exact Int.not_lt.mpr hfit
  have hrun : n+1 = missRun blockInit dev lba 0 (n+1) := (missRun_blank (succ_pos n)).symm
  have hread : blockRead (fun _ => {}) dev lba (n+1) out (fun _ => ataTransfer stop)
      ⟨fun _ _ => zeros,blockInit⟩ = _ :=
    readLoop_miss (succ_pos n) Cache.blockInit_find hrun rfl
  rw [hread,if_neg hnn,readLoop_end (Nat.le_add_left ..)]
  exact ⟨rfl,if_neg (by simp only [ataTransfer]; omega)⟩

/-- A read is sound in every state exactly where the drive reads all sectors, or breaks off in
the first chunk, or where the number of bytes it reports is negative as an `int`. -/
theorem readSound_iff (dev : Nat) (lba : BitVec 64) (n stop : Nat) :
    (∀ s out, Coherent s → ReadSound dev lba n out stop s) ↔
      n ≤ stop ∨ stop < dmaChunk ∨ toInt (wholeChunks stop*512) < 0 := by
  constructor
  · intro h
    by_contra hno
    obtain ⟨hlt,hno⟩ := not_or.mp hno
    obtain ⟨hchunk,hfit⟩ := not_or.mp hno
    have hstop : stop < n := not_le.mp hlt
    obtain ⟨h1,h2⟩ := shortRead_returns dev lba (fun _ => ones) (not_lt.mp hchunk) hstop
      (Int.not_lt.mp hfit)
    have hok := h ⟨fun _ _ => zeros,blockInit⟩ (fun _ => ones) (blockInit_coherent _)
    exact zeros_ne_ones ((hok.data h1 stop hstop).symm.trans h2)
  · intro hcond s out hs
    refine blockRead_ok (fun _ m hm hnn => ?_) out hs
    rw [ataTransfer_result] at hnn
    split at hnn
    · assumption
    rcases hcond with hle | hchunk | hneg
    · omega
    · have hwhole : wholeChunks stop = 0 := by
        simp only [wholeChunks,dmaChunk] at hchunk ⊢
        omega
      rw [if_pos hwhole] at hnn
      exact absurd toInt_neg_one (Int.not_lt.mpr hnn)
    · split at hnn
      · exact absurd toInt_neg_one (Int.not_lt.mpr hnn)
      · exact absurd hneg (Int.not_lt.mpr hnn)

/-- Which requests the block layer answers soundly, whatever the cache and the buffer hold,
when the ATA driver stops after `stop` of their sectors. -/
theorem short_transfers_iff (dev : Nat) (lba : BitVec 64) (n stop : Nat) :
    ((∀ s out, Coherent s → ReadSound dev lba n out stop s) ↔
      n ≤ stop ∨ stop < dmaChunk ∨ toInt (wholeChunks stop*512) < 0) ∧
    ((∀ s data, Coherent s → data.length = n → WriteSound dev lba data stop s) ↔
      stop = 0 ∨ (n ≤ stop ∧ 0 ≤ toInt (n*512))) :=
  ⟨readSound_iff dev lba n stop,writeSound_iff dev lba n stop⟩

/-- 128 sectors are read, the drive stops after 64: the read succeeds, and the buffer has what
it had before where the device has zeros. -/
theorem half_read_succeeds :
    (blockRead (fun _ => {}) 0 0 128 (fun _ => ones) (fun _ => ataTransfer 64)
      ⟨fun _ _ => zeros,blockInit⟩).1 = 0 ∧
    ¬ ReadSound 0 0 128 (fun _ => ones) 64 ⟨fun _ _ => zeros,blockInit⟩ := by
  have hshort : 64 < 128 := by decide
  obtain ⟨h1,h2⟩ := shortRead_returns 0 0 (fun _ => ones) (le_refl dmaChunk) hshort (by decide)
  exact ⟨h1,fun h => zeros_ne_ones ((h.data h1 64 (by decide)).symm.trans h2)⟩

end Lariat.Block
