import Mathlib.Data.Int.ModEq
import Nachos.Lib.Transition
import Nachos.Filesys.SynchDisk

/-!
This module contains the time that a request to the disk of `disk.cc` takes. The disk turns at one sector
per `RotationTime`, and its head moves at one track per `SeekTime`: a request is done as soon as the head
has passed over the sector, unless the sector is in the track buffer, and the track buffer has a sector
only if the head has passed over it before.
-/

namespace Nachos

open SynchDisk (sectorsPerTrack numTracks numSectors)

structure Disk where
  active : Bool
  lastSector : Int
  bufferInit : Int

namespace Disk

def rotationTime : Int := 500
def seekTime : Int := 500

def new : Disk where
  active := false
  lastSector := 0
  bufferInit := 0

def timeToSeek (d : Disk) (totalTicks newSector : Int) : Int × Int :=
  let newTrack := newSector.tdiv sectorsPerTrack
  let oldTrack := d.lastSector.tdiv sectorsPerTrack
  let seek := |newTrack - oldTrack| * seekTime
  let overBy := (totalTicks + seek).tmod rotationTime
  (seek, if overBy > 0 then rotationTime - overBy else 0)

def moduloDiff (target source : Int) : Int :=
  ((target.tmod sectorsPerTrack - source.tmod sectorsPerTrack) + sectorsPerTrack).tmod sectorsPerTrack

def timeAfter (d : Disk) (totalTicks newSector : Int) : Int :=
  totalTicks + (d.timeToSeek totalTicks newSector).1 + (d.timeToSeek totalTicks newSector).2

def trackBufferApplies (d : Disk) (totalTicks newSector : Int) (writing : Bool) : Bool :=
  writing = false ∧ (d.timeToSeek totalTicks newSector).1 = 0 ∧
    (d.timeAfter totalTicks newSector - d.bufferInit).tdiv rotationTime >
      moduloDiff newSector (d.bufferInit.tdiv rotationTime)

/--
The code is compiled with the track buffer, unless `NOTRACKBUF` is defined.
-/
def computeLatency (trackBuffer : Bool) (d : Disk) (totalTicks newSector : Int) (writing : Bool) : Int :=
  if trackBuffer && d.trackBufferApplies totalTicks newSector writing then
    rotationTime
  else
    (d.timeToSeek totalTicks newSector).1 +
      ((d.timeToSeek totalTicks newSector).2 +
        moduloDiff newSector ((d.timeAfter totalTicks newSector).tdiv rotationTime) * rotationTime) +
      rotationTime

def updateLast (d : Disk) (totalTicks newSector : Int) : Disk :=
  { d with
    bufferInit :=
      if (d.timeToSeek totalTicks newSector).1 ≠ 0 then d.timeAfter totalTicks newSector else d.bufferInit
    lastSector := newSector }

/--
`ReadRequest` and `WriteRequest`, with the delay of the interrupt. The result is `none` if one of the `ASSERT`s
fails, among them the one of `Schedule`.
-/
def request (trackBuffer : Bool) (d : Disk) (totalTicks sectorNumber : Int) (writing : Bool)
    : Option (Disk × Int) :=
  let ticks := d.computeLatency trackBuffer totalTicks sectorNumber writing
  if d.active = false ∧ 0 ≤ sectorNumber ∧ sectorNumber < numSectors ∧ ticks > 0 then
    some ({ d.updateLast totalTicks sectorNumber with active := true }, ticks)
  else
    none

def handleInterrupt (d : Disk) : Disk :=
  { d with active := false }

/-! ### Histories -/

def track (sector : Int) : Int :=
  sector / sectorsPerTrack

structure Request where
  issued : Int
  sector : Int

def lastTrack : List Request → Int
  | [] => 0
  | r :: _ => track r.sector

/--
The track that the head is over at some time, where the last request comes first.
-/
def headAt : List Request → Int → Int
  | [], _ => 0
  | r :: rest, time =>
    if time < r.issued then
      headAt rest time
    else if time < r.issued + |track r.sector - lastTrack rest| * seekTime then
      lastTrack rest + (track r.sector - lastTrack rest).sign * ((time - r.issued) / seekTime)
    else
      track r.sector

def StartsAt (sector time : Int) : Prop :=
  time ≡ sector % sectorsPerTrack * rotationTime [ZMOD sectorsPerTrack * rotationTime]

structure History where
  disk : Disk
  requests : List Request
  completed : Int

def History.start : History where
  disk := .new
  requests := []
  completed := 0

inductive History.Step (trackBuffer : Bool) : History → History → Prop where
  | request {h : History} {totalTicks sector ticks : Int} {writing : Bool} {disk : Disk}
      (hissued : h.completed ≤ totalTicks)
      (hrequest : h.disk.request trackBuffer totalTicks sector writing = some (disk, ticks))
    : Step trackBuffer h ⟨disk.handleInterrupt, ⟨totalTicks, sector⟩ :: h.requests, totalTicks + ticks⟩

abbrev History.Reachable (trackBuffer : Bool) : History → Prop :=
  Transition.Reachable (· = History.start) (History.Step trackBuffer)

/-! ### The plain computation -/

theorem sectorsPerTrack_eq : (sectorsPerTrack : Int) = 32 := rfl

theorem rotationTime_eq : rotationTime = 500 := rfl

theorem seekTime_eq : seekTime = 500 := rfl

theorem moduloDiff_eq {target source : Int} (htarget : 0 ≤ target) (hsource : 0 ≤ source)
    : moduloDiff target source = (target - source) % 32 := by
  unfold moduloDiff
  rw [sectorsPerTrack_eq, Int.tmod_eq_emod_of_nonneg htarget, Int.tmod_eq_emod_of_nonneg hsource,
    Int.tmod_eq_emod_of_nonneg (by omega)]
  omega

def InRange (sector : Int) : Prop :=
  0 ≤ sector ∧ sector < numSectors

section

variable {d : Disk} {t s : Int} {writing trackBuffer : Bool}

theorem timeToSeek_spec (hlast : InRange d.lastSector) (ht : 0 ≤ t) (hs : InRange s)
    : (d.timeToSeek t s).1 = |track s - track d.lastSector| * seekTime ∧
      0 ≤ (d.timeToSeek t s).1 ∧ (d.timeToSeek t s).1 ≤ 15500 ∧
      0 ≤ (d.timeToSeek t s).2 ∧ (d.timeToSeek t s).2 < 500 ∧ d.timeAfter t s % 500 = 0 := by
  have hsectors : (numSectors : Int) = 1024 := rfl
  unfold InRange at hlast hs
  rw [hsectors] at hlast hs
  have hseek : (d.timeToSeek t s).1 = |track s - track d.lastSector| * seekTime := by
    unfold timeToSeek track
    rw [Int.tdiv_eq_ediv_of_nonneg hs.1, Int.tdiv_eq_ediv_of_nonneg hlast.1]
  have hbound : 0 ≤ (d.timeToSeek t s).1 ∧ (d.timeToSeek t s).1 ≤ 15500 := by
    have habs : |track s - track d.lastSector| ≤ 31 := by
      rw [abs_le]
      unfold track
      rw [sectorsPerTrack_eq]
      omega
    have hnonneg := abs_nonneg (track s - track d.lastSector)
    rw [hseek, seekTime_eq]
    omega
  have hrotation : (d.timeToSeek t s).2 =
      if (t + (d.timeToSeek t s).1) % 500 > 0 then 500 - (t + (d.timeToSeek t s).1) % 500 else 0 := by
    have hmod := Int.tmod_eq_emod_of_nonneg (b := rotationTime) (show 0 ≤ t + (d.timeToSeek t s).1 by omega)
    rw [rotationTime_eq] at hmod
    rw [← hmod]
    rfl
  refine ⟨hseek, hbound.1, hbound.2, ?_⟩
  unfold timeAfter
  rw [hrotation]
  split <;> omega

theorem seek_eq_zero (hlast : InRange d.lastSector) (ht : 0 ≤ t) (hs : InRange s)
    : (d.timeToSeek t s).1 = 0 ↔ track s = track d.lastSector := by
  rw [(timeToSeek_spec hlast ht hs).1, seekTime_eq, Int.mul_eq_zero, abs_eq_zero]
  omega

theorem computeLatency_of_buffer (h : d.trackBufferApplies t s writing = true)
    : d.computeLatency true t s writing = rotationTime := by
  unfold computeLatency
  rw [h]
  rfl

theorem computeLatency_plain (hlast : InRange d.lastSector) (ht : 0 ≤ t) (hs : InRange s)
    (h : (trackBuffer && d.trackBufferApplies t s writing) = false)
    : t + d.computeLatency trackBuffer t s writing =
        d.timeAfter t s + (s - d.timeAfter t s / 500) % 32 * 500 + 500 := by
  obtain ⟨_, hseek, _, hrotation, _, _⟩ := timeToSeek_spec hlast ht hs
  have hafter : 0 ≤ d.timeAfter t s := by
    unfold timeAfter
    omega
  unfold computeLatency
  rw [h, if_neg Bool.false_ne_true, rotationTime_eq, Int.tdiv_eq_ediv_of_nonneg hafter,
    moduloDiff_eq hs.1 (by omega)]
  unfold timeAfter
  omega

theorem computeLatency_bounds (trackBuffer writing : Bool) (hlast : InRange d.lastSector) (ht : 0 ≤ t)
    (hs : InRange s)
    : rotationTime ≤ d.computeLatency trackBuffer t s writing ∧
      d.computeLatency trackBuffer t s writing < 2 * numTracks * seekTime := by
  have hmax : 2 * (numTracks : Int) * seekTime = 32000 := rfl
  rw [hmax, rotationTime_eq]
  cases h : trackBuffer && d.trackBufferApplies t s writing with
  | true =>
    unfold computeLatency
    rw [h, if_pos rfl, rotationTime_eq]
    omega
  | false =>
    have hplain := computeLatency_plain hlast ht hs h
    obtain ⟨_, hseek, hseek', hrotation, hrotation', _⟩ := timeToSeek_spec hlast ht hs
    have hafter : d.timeAfter t s = t + (d.timeToSeek t s).1 + (d.timeToSeek t s).2 := rfl
    omega

theorem completion_earliest (hlast : InRange d.lastSector) (ht : 0 ≤ t) (hs : InRange s)
    (h : (trackBuffer && d.trackBufferApplies t s writing) = false)
    : t + d.computeLatency trackBuffer t s writing ≡
          (s % sectorsPerTrack + 1) * rotationTime [ZMOD sectorsPerTrack * rotationTime] ∧
      t + |track s - track d.lastSector| * seekTime + rotationTime ≤
          t + d.computeLatency trackBuffer t s writing ∧
      ∀ time, time ≡ (s % sectorsPerTrack + 1) * rotationTime [ZMOD sectorsPerTrack * rotationTime] →
        t + |track s - track d.lastSector| * seekTime + rotationTime ≤ time →
        t + d.computeLatency trackBuffer t s writing ≤ time := by
  obtain ⟨hseek, _, _, hrotation, hrotation', hboundary⟩ := timeToSeek_spec hlast ht hs
  have hafter : d.timeAfter t s = t + (d.timeToSeek t s).1 + (d.timeToSeek t s).2 := rfl
  rw [computeLatency_plain hlast ht hs h, ← hseek, sectorsPerTrack_eq, rotationTime_eq]
  unfold Int.ModEq
  refine ⟨by omega, by omega, ?_⟩
  intro time hcong hle
  omega

theorem passed_of_buffer (hlast : InRange d.lastSector) (ht : 0 ≤ t) (hs : InRange s)
    (hinit : 0 ≤ d.bufferInit) (hboundary : d.bufferInit % 500 = 0) (hle : d.bufferInit ≤ t)
    (h : d.trackBufferApplies t s writing = true)
    : track s = track d.lastSector ∧
      ∃ time, StartsAt s time ∧ d.bufferInit ≤ time ∧ time + rotationTime ≤ t + rotationTime := by
  unfold trackBufferApplies at h
  obtain ⟨_, hseek, hpassed⟩ := of_decide_eq_true h
  obtain ⟨_, _, _, hrotation, hrotation', hafter⟩ := timeToSeek_spec hlast ht hs
  have htime : d.timeAfter t s = t + (d.timeToSeek t s).1 + (d.timeToSeek t s).2 := rfl
  rw [rotationTime_eq, Int.tdiv_eq_ediv_of_nonneg (by omega), Int.tdiv_eq_ediv_of_nonneg hinit,
    moduloDiff_eq hs.1 (by omega)] at hpassed
  refine ⟨(seek_eq_zero hlast ht hs).1 hseek,
    d.bufferInit + (s - d.bufferInit / 500) % 32 * 500, ?_, by omega, by omega⟩
  unfold StartsAt Int.ModEq
  rw [sectorsPerTrack_eq, rotationTime_eq]
  omega

end

/-! ### Over the whole history -/

structure History.Inv (h : History) : Prop where
  active : h.disk.active = false
  last : InRange h.disk.lastSector
  bufferInit : 0 ≤ h.disk.bufferInit
  boundary : h.disk.bufferInit % 500 = 0
  completed : h.disk.bufferInit ≤ h.completed
  lastTrack : lastTrack h.requests = track h.disk.lastSector
  head : ∀ time, h.disk.bufferInit ≤ time → headAt h.requests time = track h.disk.lastSector

theorem History.Inv.start : History.start.Inv := by
  refine ⟨rfl, ?_, Int.le_refl 0, rfl, Int.le_refl 0, rfl, fun _ _ => rfl⟩
  exact ⟨Int.le_refl 0, by decide⟩

section

variable {h : History} (hinv : h.Inv)

include hinv

theorem History.Inv.nonneg {t : Int} (ht : h.completed ≤ t) : 0 ≤ t := by
  have hinit := hinv.bufferInit
  have hcompleted := hinv.completed
  omega

theorem History.Inv.headAt_cons {t s since : Int}
    (hsince : if track s = track h.disk.lastSector then since = h.disk.bufferInit else
      t + |track s - track h.disk.lastSector| * seekTime ≤ since)
    {time : Int} (htime : since ≤ time)
    : headAt (⟨t, s⟩ :: h.requests) time = track s := by
  unfold headAt
  dsimp only
  rw [hinv.lastTrack]
  by_cases htrack : track s = track h.disk.lastSector
  . rw [if_pos htrack] at hsince
    split
    next => rw [hinv.head time (by omega), htrack]
    next =>
      rw [htrack, sub_self, abs_zero, zero_mul, Int.add_zero]
      rw [if_neg (by omega)]
  . rw [if_neg htrack] at hsince
    have hnonneg := abs_nonneg (track s - track h.disk.lastSector)
    rw [seekTime_eq] at *
    rw [if_neg (by omega), if_neg (by omega)]

theorem History.Inv.updateLast (trackBuffer writing : Bool) {t s : Int} (ht : h.completed ≤ t) (hs : InRange s)
    : 0 ≤ (h.disk.updateLast t s).bufferInit ∧ (h.disk.updateLast t s).bufferInit % 500 = 0 ∧
        (h.disk.updateLast t s).bufferInit ≤ t + h.disk.computeLatency trackBuffer t s writing := by
  have hnonneg := hinv.nonneg ht
  obtain ⟨_, _, _, hrotation, _, hafter⟩ := timeToSeek_spec hinv.last hnonneg hs
  have hbounds := computeLatency_bounds trackBuffer writing hinv.last hnonneg hs
  rw [rotationTime_eq] at hbounds
  have htime : h.disk.timeAfter t s = t + (h.disk.timeToSeek t s).1 + (h.disk.timeToSeek t s).2 := rfl
  unfold Disk.updateLast
  dsimp only
  split
  next hne =>
    -- a seek is never answered from the track buffer
    have hplain : (trackBuffer && h.disk.trackBufferApplies t s writing) = false := by
      unfold trackBufferApplies
      simp [hne]
    have heq := computeLatency_plain hinv.last hnonneg hs hplain
    omega
  next =>
    have hinit := hinv.bufferInit
    have hboundary := hinv.boundary
    have hcompleted := hinv.completed
    omega

end

theorem History.Inv.step {trackBuffer : Bool} {h h' : History} (hinv : h.Inv) (hstep : h.Step trackBuffer h')
    : h'.Inv := by
  cases hstep with
  | @request t s ticks writing disk hissued hrequest =>
    unfold request at hrequest
    dsimp only at hrequest
    split at hrequest
    next hassert =>
      cases hrequest
      obtain ⟨_, hs, hs', _⟩ := hassert
      have hnonneg := hinv.nonneg hissued
      have hseek := seek_eq_zero hinv.last hnonneg ⟨hs, hs'⟩
      obtain ⟨hseek', _, _, hrotation, _⟩ := timeToSeek_spec hinv.last hnonneg ⟨hs, hs'⟩
      obtain ⟨hinit, hboundary, hend⟩ := hinv.updateLast trackBuffer writing hissued ⟨hs, hs'⟩
      refine ⟨rfl, ⟨hs, hs'⟩, hinit, hboundary, hend, rfl, ?_⟩
      intro time hle
      apply hinv.headAt_cons ?_ hle
      unfold handleInterrupt Disk.updateLast
      dsimp only
      split
      next htrack => rw [if_neg (not_not.2 (hseek.2 htrack))]
      next htrack =>
        have htime : h.disk.timeAfter t s = t + (h.disk.timeToSeek t s).1 + (h.disk.timeToSeek t s).2 := rfl
        rw [if_pos (fun heq => htrack (hseek.1 heq)), ← hseek']
        omega
    next => cases hrequest

theorem History.Reachable.inv {trackBuffer : Bool} {h : History} (hreach : h.Reachable trackBuffer) : h.Inv := by
  apply Transition.Reachable.invariant ?_ ?_ hreach
  . intro h heq
    subst heq
    exact .start
  . intro h h' _ hinv hstep
    exact hinv.step hstep

theorem disk_latency_exact {trackBuffer : Bool} {h : History} (hreach : h.Reachable trackBuffer) {t s : Int}
    (ht : h.completed ≤ t) (hs : 0 ≤ s ∧ s < numSectors) (writing : Bool)
    : (h.disk.request trackBuffer t s writing).isSome ∧
      rotationTime ≤ h.disk.computeLatency trackBuffer t s writing ∧
      h.disk.computeLatency trackBuffer t s writing < 2 * numTracks * seekTime ∧
      -- the plain computation, where the seek ends at `t + |track s - track lastSector| * seekTime`
      ((trackBuffer && h.disk.trackBufferApplies t s writing) = false →
        t + h.disk.computeLatency trackBuffer t s writing ≡
          (s % sectorsPerTrack + 1) * rotationTime [ZMOD sectorsPerTrack * rotationTime] ∧
        t + |track s - track h.disk.lastSector| * seekTime + rotationTime ≤
          t + h.disk.computeLatency trackBuffer t s writing ∧
        ∀ time, time ≡ (s % sectorsPerTrack + 1) * rotationTime [ZMOD sectorsPerTrack * rotationTime] →
          t + |track s - track h.disk.lastSector| * seekTime + rotationTime ≤ time →
          t + h.disk.computeLatency trackBuffer t s writing ≤ time) ∧
      -- the shortcut
      ((trackBuffer && h.disk.trackBufferApplies t s writing) = true →
        (∃ time, StartsAt s time ∧ h.disk.bufferInit ≤ time ∧
          time + rotationTime ≤ t + h.disk.computeLatency trackBuffer t s writing ∧
          ∀ time', h.disk.bufferInit ≤ time' → headAt (⟨t, s⟩ :: h.requests) time' = track s) ∧
        h.disk.computeLatency trackBuffer t s writing ≤ h.disk.computeLatency false t s writing) := by
  have hinv := hreach.inv
  have hnonneg := hinv.nonneg ht
  have hbounds := fun trackBuffer : Bool => computeLatency_bounds trackBuffer writing hinv.last hnonneg hs
  refine ⟨?_, (hbounds trackBuffer).1, (hbounds trackBuffer).2, completion_earliest hinv.last hnonneg hs, ?_⟩
  . have hpos := (hbounds trackBuffer).1
    rw [rotationTime_eq] at hpos
    unfold request
    dsimp only
    rw [if_pos ⟨hinv.active, hs.1, hs.2, by omega⟩]
    rfl
  . intro h'
    rw [Bool.and_eq_true] at h'
    obtain ⟨hbuffer, happlies⟩ := h'
    subst hbuffer
    have hle := hinv.completed
    obtain ⟨htrack, time, hstarts, hinit, hend⟩ := passed_of_buffer hinv.last hnonneg hs hinv.bufferInit
      hinv.boundary (by omega) happlies
    rw [computeLatency_of_buffer happlies]
    refine ⟨⟨time, hstarts, hinit, hend, ?_⟩, (hbounds false).1⟩
    intro time' hle'
    apply hinv.headAt_cons ?_ hle'
    rw [if_pos htrack]

theorem disk_latency_exact_buffered
    : computeLatency true ⟨false, 3, 0⟩ 2000 2 false = 500 ∧
        ∃ time, StartsAt 2 time ∧ 0 ≤ time ∧ time + rotationTime ≤ 2500 := by
  have hstep : History.start.Step true ⟨⟨false, 3, 0⟩, [⟨0, 3⟩], 0 + 2000⟩ :=
    @History.Step.request true .start 0 3 2000 false ⟨true, 3, 0⟩ (Int.le_refl 0) rfl
  have hreach : History.Reachable true ⟨⟨false, 3, 0⟩, [⟨0, 3⟩], 0 + 2000⟩ :=
    Transition.Reachable.tail (.init rfl) hstep
  obtain ⟨_, _, _, _, hbuffer⟩ := disk_latency_exact hreach (t := 2000) (s := 2) (Int.le_refl 2000) (by decide)
    false
  obtain ⟨⟨time, hstarts, hinit, hend, _⟩, _⟩ := hbuffer (by decide)
  exact ⟨by decide, time, hstarts, hinit, hend⟩

end Disk

end Nachos
