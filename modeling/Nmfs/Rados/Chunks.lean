import Nmfs.Lib.Recordings
import Nmfs.Rados.Operations

/-!
# The chunks of a range

The loops of `read`, `write` and `zerofill` cut the range `[offset, offset + len)`
into chunks.  `Cover` says what the chunks should be, without the masks and
shifts of the source: not empty, each inside one object, each from where the one
before has ended.  `ReadStays`, `WriteStays` and `ZerofillStays` say what each
loop does with them, for any content of the pool.

The three hold for every range up to `offEnd`, the end of the last object but
one, and for no other range with a byte in it (`chunks_stay_iff`).
-/

namespace Nmfs

namespace RadosIo

open Bytes

/-- The first byte and the length of a chunk. -/
abbrev Chunk := Nat × Nat

/-- The chunks lead from one position to the other. -/
inductive Cover : Nat → Nat → List Chunk → Prop
  | done (pos : Nat) : Cover pos pos []
  | chunk {pos len stop : Nat} {cs : List Chunk} (hpos : 0 < len)
      (hinside : pos % objSize + len ≤ objSize) (hrest : Cover (pos + len) stop cs) :
      Cover pos stop ((pos, len) :: cs)

namespace Cover

variable {pos stop : Nat} {cs : List Chunk}

theorem le (h : Cover pos stop cs) : pos ≤ stop := by
  induction h with
  | done pos => exact Nat.le_refl pos
  | chunk hpos hinside hrest ih => omega

/-- Each chunk lies in the range, and in one object. -/
theorem of_mem (h : Cover pos stop cs) {c : Chunk} (hc : c ∈ cs) :
    pos ≤ c.1 ∧ c.1 + c.2 ≤ stop ∧ c.1 % objSize + c.2 ≤ objSize := by
  induction h with
  | done pos => cases hc
  | @chunk pos len stop cs hpos hinside hrest ih =>
      rcases List.mem_cons.mp hc with rfl | hc
      · exact ⟨Nat.le_refl _, hrest.le, hinside⟩
      · obtain ⟨hle, hrange⟩ := ih hc
        exact ⟨by omega, hrange⟩

/-- The parts of a value for the chunks are the value, piece by piece. -/
theorem flatMap_slice
    (h : Cover pos stop cs) {offset : Nat} (hoffset : offset ≤ pos) (value : Bytes) :
    (cs.flatMap fun c => slice value (c.1 - offset) c.2) =
      slice value (pos - offset) (stop - pos) := by
  induction h with
  | done pos => simp [slice]
  | @chunk pos len stop cs hpos hinside hrest ih =>
      have hle := hrest.le
      rw [List.flatMap_cons, ih (by omega)]
      have hjoin := slice_append_slice value (pos - offset) len (stop - (pos + len))
      rw [show pos - offset + len = pos + len - offset by omega,
        show len + (stop - (pos + len)) = stop - pos by omega] at hjoin
      exact hjoin

end Cover

/-- The chunks of the loops, from a cursor on. -/
def chunks (stop cursor : Nat) : List Chunk :=
  if _h : cursor < stop then
    (cursor, subLen cursor stop) :: chunks stop (nextBound cursor)
  else []
termination_by stop - cursor
decreasing_by
  have := lt_nextBound cursor
  omega

/-- From one cursor of the loops to the next. -/
theorem cursor_induction
    {stop : Nat} {motive : Nat → Prop}
    (done : ∀ cursor, ¬ cursor < stop → motive cursor)
    (next : ∀ cursor, cursor < stop → motive (nextBound cursor) → motive cursor)
    (cursor : Nat) : motive cursor := by
  induction hm : stop - cursor using Nat.strongRecOn generalizing cursor with
  | ind m ih =>
    by_cases hlt : cursor < stop
    · have hbound := lt_nextBound cursor
      exact next cursor hlt (ih (stop - nextBound cursor) (by omega) _ rfl)
    · exact done cursor hlt

theorem chunks_of_lt {stop cursor : Nat} (h : cursor < stop) :
    chunks stop cursor =
      (cursor, subLen cursor stop) :: chunks stop (nextBound cursor) := by
  rw [chunks, dif_pos h]

theorem chunks_of_not_lt {stop cursor : Nat} (h : ¬ cursor < stop) :
    chunks stop cursor = [] := by
  rw [chunks, dif_neg h]

/-- The masks and shifts of the loops do what they should. -/
theorem cover_chunks (stop cursor : Nat) :
    Cover (min cursor stop) stop (chunks stop cursor) := by
  induction cursor using @cursor_induction stop with
  | done cursor hend =>
      rw [chunks_of_not_lt hend, Nat.min_eq_right (Nat.le_of_not_lt hend)]
      exact .done stop
  | next cursor hlt ih =>
      obtain ⟨hpos, -, hinside⟩ := subLen_spec hlt
      rw [chunks_of_lt hlt, Nat.min_eq_left (Nat.le_of_lt hlt)]
      refine .chunk hpos (by rw [← objOffset_eq]; exact hinside) ?_
      rcases nextBound_or hlt with ⟨hnext, hle⟩ | ⟨hnext, hle⟩
      · rw [Nat.min_eq_left hle] at ih
        rw [hnext]
        exact ih
      · rw [Nat.min_eq_right hle] at ih
        rw [hnext]
        exact ih

section Loops

variable (category : ObjCategory) (key : Key)

/-- The name of the object that a chunk lies in. -/
def chunkName (c : Chunk) : Key := objName category key (objNum c.1)

def readCall (c : Chunk) : IoCall :=
  .read (chunkName category key c) c.2 (objOffset c.1)

def writeCall (data : Chunk → Bytes) (c : Chunk) : IoCall :=
  .write (chunkName category key c) (data c) (objOffset c.1)

/-- A run, and the calls that it makes. -/
def recorded {σ α : Type} (L : Librados σ) (q : IoProg α) (s : σ) :
    Outcome Exn α × (σ × List IoCall) :=
  q.run L.call.recording (s, [])

variable {category : ObjCategory} {key : Key}

theorem run_writeObj_recording
    {buf : Bytes} {len : Nat} (hlen : len ≤ buf.length) (oid : Key) (offset : Nat)
    (p : Pool) (made : List IoCall) :
    ∃ p', (writeObj oid buf len offset).run Pool.handle.recording (p, made) =
      (.ok len, (p', made ++ [.write oid (buf.take len) offset])) := by
  rw [writeObj, if_neg (Nat.not_lt_of_le hlen)]
  exact ⟨_, rfl⟩

/-- The loop of `zerofill` writes zeros into every chunk. -/
theorem run_zerofillLoop_recording
    {zeros stop cursor : Nat} (hend : cursor < stop → stop ≤ offEnd)
    (hzeros : min (stop - cursor) objSize ≤ zeros) (p : Pool) (made : List IoCall) :
    ∃ p', (zerofillLoop category key (List.replicate zeros 0) stop cursor).run
        Pool.handle.recording (p, made) =
      (.ok (), (p', made ++ (chunks stop cursor).map
        (writeCall category key fun c => List.replicate c.2 0))) := by
  induction cursor using @cursor_induction stop generalizing p made with
  | done cursor hlt =>
      rw [zerofillLoop, dif_neg hlt, chunks_of_not_lt hlt, List.map_nil,
        List.append_nil]
      exact ⟨p, rfl⟩
  | next cursor hlt ih =>
      obtain ⟨-, hle, hinside⟩ := subLen_spec hlt
      have hmin : subLen cursor stop ≤ min (stop - cursor) objSize :=
        Nat.le_min.mpr ⟨by omega, Nat.le_trans (Nat.le_add_left _ _) hinside⟩
      have hsub : subLen cursor stop ≤ zeros := Nat.le_trans hmin hzeros
      have hnext : min (stop - nextBound cursor) objSize ≤ zeros := by
        have hbound := lt_nextBound cursor
        exact Nat.le_trans (Nat.le_min.mpr
          ⟨Nat.le_trans (Nat.min_le_left _ _) (by omega), Nat.min_le_right _ _⟩)
          hzeros
      obtain ⟨p₁, hone⟩ := run_writeObj_recording
        (show subLen cursor stop ≤ (List.replicate zeros (0 : UInt8)).length by
          rw [List.length_replicate]
          exact hsub)
        (objName category key (objNum cursor)) (objOffset cursor) p made
      obtain ⟨p', hrest⟩ := ih (fun h => hend hlt) hnext p₁
        (made ++ [writeCall category key (fun c => List.replicate c.2 0)
          (cursor, subLen cursor stop)])
      refine ⟨p', ?_⟩
      rw [List.take_replicate, Nat.min_eq_left hsub] at hone
      rw [List.append_assoc, List.singleton_append] at hrest
      rw [zerofillLoop, dif_pos hlt,
        if_pos (nextBound_lt_offMax (Nat.lt_of_lt_of_le hlt (hend hlt))),
        Prog.run_bind_ok _ hone, chunks_of_lt hlt, List.map_cons]
      exact hrest

/-- The loop of `write` writes the part of the value for every chunk. -/
theorem run_writeLoop_recording
    {value : Bytes} {offset stop cursor sum : Nat}
    (hend : cursor < stop → stop ≤ offEnd) (hstop : stop = offset + value.length)
    (hsum : sum = min cursor stop - offset) (hoffset : offset ≤ cursor)
    (p : Pool) (made : List IoCall) :
    ∃ p', (writeLoop category key value stop cursor sum).run Pool.handle.recording
        (p, made) =
      (.ok value.length, (p', made ++ (chunks stop cursor).map
        (writeCall category key fun c => slice value (c.1 - offset) c.2))) := by
  induction cursor using @cursor_induction stop generalizing sum p made with
  | done cursor hlt =>
      have hall : sum = value.length := by omega
      rw [writeLoop, dif_neg hlt, chunks_of_not_lt hlt, List.map_nil,
        List.append_nil, hall]
      exact ⟨p, rfl⟩
  | next cursor hlt ih =>
      obtain ⟨hpos, hle, -⟩ := subLen_spec hlt
      have hbound := lt_nextBound cursor
      have hfrom : sum = cursor - offset := by omega
      have hsub : subLen cursor stop ≤ (value.drop sum).length := by
        rw [List.length_drop]
        omega
      have hsum' : sum + subLen cursor stop =
          min (nextBound cursor) stop - offset := by
        rcases nextBound_or hlt with ⟨hnext, hin⟩ | ⟨hnext, hin⟩
        · rw [Nat.min_eq_left hin]
          omega
        · rw [Nat.min_eq_right hin]
          omega
      obtain ⟨p₁, hone⟩ := run_writeObj_recording hsub
        (objName category key (objNum cursor)) (objOffset cursor) p made
      obtain ⟨p', hrest⟩ := ih (fun h => hend hlt) hsum' (by omega) p₁
        (made ++ [writeCall category key
          (fun c => slice value (c.1 - offset) c.2) (cursor, subLen cursor stop)])
      refine ⟨p', ?_⟩
      rw [hfrom] at hone hrest
      rw [List.append_assoc, List.singleton_append] at hrest
      rw [writeLoop, dif_pos hlt,
        if_pos (nextBound_lt_offMax (Nat.lt_of_lt_of_le hlt (hend hlt))), hfrom,
        Prog.run_bind_ok _ hone, chunks_of_lt hlt, List.map_cons]
      exact hrest

theorem run_readObj_recording
    {room len : Nat} (hroom : len ≤ room) (oid : Key) (offset : Nat) (value : Bytes)
    (p : Pool) (made : List IoCall) :
    (Prog.tryCatch (readObj oid room len offset) (addNumBytes value)).run
        Pool.handle.recording (p, made) =
      (match p oid with
        | some b => .ok (slice b offset len)
        | none => .throws (.noSuchObject value),
        (p, made ++ [.read oid len offset])) := by
  rw [Prog.run_tryCatch, readObj, if_neg (Nat.not_lt_of_le hroom), Prog.run_call,
    Prog.recording_apply]
  dsimp only [Pool.handle]
  cases p oid <;> rfl

/-- A run of `read` over chunks, with `value` in a buffer of `len` bytes: to the
end, or to the first object that is missing.  Before every call there is room
for its chunk. -/
inductive ReadRun (category : ObjCategory) (key : Key) (len : Nat) (p : Pool) :
    (value : Bytes) → List Chunk → Outcome Exn Bytes → List IoCall → Prop
  | finished (value : Bytes) : ReadRun category key len p value [] (.ok value) []
  | missing {value : Bytes} {c : Chunk} {cs : List Chunk}
      (hroom : value.length + c.2 ≤ len)
      (hobj : p (chunkName category key c) = none) :
      ReadRun category key len p value (c :: cs) (.throws (.noSuchObject value))
        [readCall category key c]
  | found {value b : Bytes} {c : Chunk} {cs : List Chunk} {o : Outcome Exn Bytes}
      {made : List IoCall} (hroom : value.length + c.2 ≤ len)
      (hobj : p (chunkName category key c) = some b)
      (hrest : ReadRun category key len p (value ++ slice b (objOffset c.1) c.2) cs
        o made) :
      ReadRun category key len p value (c :: cs) o (readCall category key c :: made)

/-- The loop of `read` is such a run over its chunks. -/
theorem run_readLoop_recording
    {len stop cursor : Nat} (hend : cursor < stop → stop ≤ offEnd) (value : Bytes)
    (hroom : cursor < stop → value.length + (stop - cursor) ≤ len)
    (p : Pool) (made : List IoCall) :
    ∃ o made', ReadRun category key len p value (chunks stop cursor) o made' ∧
      (readLoop category key len stop cursor value).run Pool.handle.recording
        (p, made) = (o, (p, made ++ made')) := by
  induction cursor using @cursor_induction stop generalizing value made with
  | done cursor hlt =>
      refine ⟨_, _, by rw [chunks_of_not_lt hlt]; exact .finished value, ?_⟩
      rw [readLoop, dif_neg hlt, List.append_nil, Prog.run_ret]
  | next cursor hlt ih =>
      obtain ⟨hpos, hle, -⟩ := subLen_spec hlt
      have hroom' := hroom hlt
      have hfits : value.length + subLen cursor stop ≤ len := by omega
      have hone := run_readObj_recording (room_of_subLen hlt hroom')
        (objName category key (objNum cursor)) (objOffset cursor) value p made
      rw [readLoop, dif_pos hlt,
        if_pos (nextBound_lt_offMax (Nat.lt_of_lt_of_le hlt (hend hlt))),
        chunks_of_lt hlt]
      cases hobj : p (objName category key (objNum cursor)) with
      | none =>
          rw [hobj] at hone
          exact ⟨_, _, .missing hfits hobj, Prog.run_bind_throws _ hone⟩
      | some b =>
          rw [hobj] at hone
          have hlen : (slice b (objOffset cursor) (subLen cursor stop)).length ≤
              subLen cursor stop := by
            rw [length_slice]
            exact Nat.min_le_left _ _
          have hroom'' : nextBound cursor < stop →
              (value ++ slice b (objOffset cursor) (subLen cursor stop)).length +
                (stop - nextBound cursor) ≤ len := by
            intro hrest
            rw [List.length_append]
            refine room_of_chunk hroom' hlen ?_ hrest
            rcases nextBound_or hlt with ⟨hnext, -⟩ | ⟨-, hin⟩
            · exact hnext
            · exact absurd hrest (Nat.not_lt_of_le hin)
          obtain ⟨o, made', hrun, hrest⟩ := ih (fun h => hend hlt)
            (value ++ slice b (objOffset cursor) (subLen cursor stop)) hroom''
            (made ++ [readCall category key (cursor, subLen cursor stop)])
          refine ⟨o, _, .found hfits hobj hrun, ?_⟩
          rw [List.append_assoc, List.singleton_append] at hrest
          exact (Prog.run_bind_ok _ hone).trans hrest

/-- The search before the gap is filled comes to an end. -/
theorem run_lbFileSize_ok (function : String) (k : Nat) (p : Pool) :
    ∃ found, (lbFileSize function category key k).run Pool.handle p =
      (.ok found, p) := by
  induction k with
  | zero =>
      rw [lbFileSize, statPrev, Prog.run_call]
      cases hobj : p (objName category key 0) with
      | none => exact ⟨none, by simp [Pool.handle, hobj]⟩
      | some b => exact ⟨_, by simp [Pool.handle, hobj]; rfl⟩
  | succ k ih =>
      rw [lbFileSize, statPrev, Prog.run_call]
      cases hobj : p (objName category key (k + 1)) with
      | none => simpa [Pool.handle, hobj] using ih
      | some b => exact ⟨_, by simp [Pool.handle, hobj]; rfl⟩

end Loops

section Ranges

variable {σ : Type} (L : Librados σ) (s : σ) (category : ObjCategory) (key : Key)

/-- `read` reads the chunks of the range, up to a missing object. -/
def ReadStays (len offset : Nat) : Prop :=
  ∃ cs o made s', Cover offset (offset + len) cs ∧
    ReadRun category key len (L.objects s) [] cs o made ∧
    recorded L (read category key len offset) s = (o, (s', made)) ∧
    L.objects s' = L.objects s

/-- `zerofill` fills the chunks of the range, and none with more than its
zeros. -/
def ZerofillStays (len offset : Nat) : Prop :=
  ∃ cs s', Cover offset (offset + len) cs ∧ (∀ c ∈ cs, c.2 ≤ min len objSize) ∧
    recorded L (zerofill category key len offset) s =
      (.ok (), (s', cs.map (writeCall category key fun c => List.replicate c.2 0)))

/-- The search of `write` ends, and its loop writes the chunks of the range,
whose data are the bytes of the value in order. -/
def WriteStays (value : Bytes) (offset : Nat) : Prop :=
  (∃ found s', (lbFileSize "rados_io::write()" category key (objNum offset)).run
    L.call s = (.ok found, s') ∧ L.objects s' = L.objects s) ∧
  ∃ cs s' data, Cover offset (offset + value.length) cs ∧
    (∀ c ∈ cs, (data c).length = c.2) ∧ cs.flatMap data = value ∧
    recorded L (writeLoop category key value (offStop offset value.length) offset 0) s =
      (.ok value.length, (s', cs.map (writeCall category key data)))

variable {L s category key} {len offset : Nat}

/-- The run with the pool makes the same calls. -/
theorem recorded_of_objects
    {α : Type} {q : IoProg α} {o : Outcome Exn α} {p' : Pool} {made : List IoCall}
    (hrun : q.run Pool.handle.recording (L.objects s, []) = (o, (p', made))) :
    ∃ s', recorded L q s = (o, (s', made)) ∧ L.objects s' = p' := by
  have hview := Prog.run_recording_view L.call_eq q s []
  rw [hrun] at hview
  rcases heq : recorded L q s with ⟨o', s', made'⟩
  rw [recorded] at heq
  rw [heq] at hview
  cases hview
  exact ⟨s', rfl, rfl⟩

/-- The chunks of a range that the loops come to the end of. -/
theorem cover_range (len offset : Nat) :
    Cover offset (offset + len) (chunks (offset + len) offset) := by
  have hcover := cover_chunks (offset + len) offset
  rwa [Nat.min_eq_left (Nat.le_add_right offset len)] at hcover

theorem read_stays
    (hmax : offset + len < offMax) (hend : len = 0 ∨ offset + len ≤ offEnd) :
    ReadStays L s category key len offset := by
  have hend' : offset < offset + len → offset + len ≤ offEnd :=
    fun hlt => hend.resolve_left (Nat.ne_of_gt (Nat.lt_add_right_iff_pos.mp hlt))
  obtain ⟨o, made, hrun, hrec⟩ := @run_readLoop_recording category key len _ _
    hend' [] (by simp) (L.objects s) []
  obtain ⟨s', hrecorded, hs'⟩ := recorded_of_objects hrec
  refine ⟨_, o, made, s', cover_range len offset, hrun, ?_, hs'⟩
  rw [read, offStop_of_lt hmax]
  exact hrecorded

theorem zerofill_stays
    (hmax : offset + len < offMax) (hend : len = 0 ∨ offset + len ≤ offEnd) :
    ZerofillStays L s category key len offset := by
  have hend' : offset < offset + len → offset + len ≤ offEnd :=
    fun hlt => hend.resolve_left (Nat.ne_of_gt (Nat.lt_add_right_iff_pos.mp hlt))
  have hcover := cover_range len offset
  obtain ⟨p', hrec⟩ := @run_zerofillLoop_recording category key
    (min len objSize) _ _ hend'
    (Nat.le_of_eq (by rw [Nat.add_sub_cancel_left])) (L.objects s) []
  obtain ⟨s', hrecorded, -⟩ := recorded_of_objects hrec
  refine ⟨_, s', hcover, ?_, ?_⟩
  · intro c hc
    obtain ⟨hle, hstop, hinside⟩ := hcover.of_mem hc
    exact Nat.le_min.mpr ⟨by omega,
      Nat.le_trans (Nat.le_add_left _ _) hinside⟩
  · rw [zerofill, offStop_of_lt hmax]
    exact hrecorded

theorem write_stays
    {value : Bytes} (hmax : offset + value.length < offMax)
    (hend : value.length = 0 ∨ offset + value.length ≤ offEnd) :
    WriteStays L s category key value offset := by
  have hend' : offset < offset + value.length → offset + value.length ≤ offEnd :=
    fun hlt => hend.resolve_left (Nat.ne_of_gt (Nat.lt_add_right_iff_pos.mp hlt))
  have hcover := cover_range value.length offset
  obtain ⟨p', hrec⟩ := @run_writeLoop_recording category key value offset
    (offset + value.length) offset 0 hend' rfl
    (by rw [Nat.min_eq_left (Nat.le_add_right _ _), Nat.sub_self])
    (Nat.le_refl _) (L.objects s) []
  obtain ⟨s', hrecorded, -⟩ := recorded_of_objects hrec
  obtain ⟨found, hfound⟩ := @run_lbFileSize_ok category key "rados_io::write()"
    (objNum offset) (L.objects s)
  obtain ⟨s₁, hsearch, hs₁⟩ := L.run_of_objects hfound
  refine ⟨⟨found, s₁, hsearch, hs₁⟩, _, s', fun c => slice value (c.1 - offset) c.2,
    hcover, ?_, ?_, ?_⟩
  · intro c hc
    obtain ⟨hle, hstop, -⟩ := hcover.of_mem hc
    rw [length_slice, Nat.min_eq_left (by omega)]
  · rw [hcover.flatMap_slice (Nat.le_refl _), Nat.sub_self,
      Nat.add_sub_cancel_left, slice, List.drop_zero, List.take_length]
  · rw [offStop_of_lt hmax]
    exact hrecorded

/-- In the last object below `offMax` the loop of `write` goes wrong, whatever
the pool has. -/
theorem not_write_stays
    {value : Bytes} (hmax : offset + value.length < offMax)
    (hne : value.length ≠ 0) (hend : offEnd < offset + value.length) :
    ¬ WriteStays L s category key value offset := by
  rintro ⟨-, cs, s', data, -, -, -, hrec⟩
  have hfault := @writeLoop_overflow category key value (offset + value.length)
    offset 0 (L.objects s) (by omega) hend
  have hplain := (Prog.run_recording L.call
    (writeLoop category key value (offset + value.length) offset 0) s []).1
  rw [recorded, offStop_of_lt hmax] at hrec
  rw [← L.run_eq, Prod.map_fst, id, ← hplain, hrec] at hfault
  cases hfault

/-- **The chunks stay in their buffers.** -/
theorem chunks_stay_iff
    {σ : Type} (L : Librados σ) (s : σ) (category : ObjCategory) (key : Key)
    (value : Bytes) (offset : Nat) (hmax : offset + value.length < offMax) :
    (ReadStays L s category key value.length offset ∧
        WriteStays L s category key value offset ∧
        ZerofillStays L s category key value.length offset) ↔
      value = [] ∨ offset + value.length ≤ offEnd := by
  rw [← List.length_eq_zero_iff]
  constructor
  · rintro ⟨-, hwrite, -⟩
    by_contra hnot
    obtain ⟨hne, hend⟩ := not_or.mp hnot
    exact not_write_stays hmax hne (Nat.lt_of_not_le hend) hwrite
  · intro hend
    exact ⟨read_stays hmax hend, write_stays hmax hend, zerofill_stays hmax hend⟩

/-- Two bytes, the last one of an object and the first one of the next. -/
theorem chunks_stay_across :
    ReadStays Pool.librados Pool.empty .DATA [] 2 (objSize - 1) ∧
      WriteStays Pool.librados Pool.empty .DATA [] [7, 8] (objSize - 1) ∧
      ZerofillStays Pool.librados Pool.empty .DATA [] 2 (objSize - 1) := by
  have hend : objSize - 1 + 2 ≤ offEnd := le_offEnd (by rw [objSize]; decide)
  exact (chunks_stay_iff Pool.librados Pool.empty .DATA [] [7, 8] (objSize - 1)
    (Nat.lt_of_le_of_lt hend offEnd_lt_offMax)).mpr (.inr hend)

/-- One byte at the beginning of the last object below `2 ^ 63`. -/
theorem chunks_leave_last_object :
    offEnd + [(7 : UInt8)].length < offMax ∧
      ¬ WriteStays Pool.librados Pool.empty .DATA [] [7] offEnd := by
  have hmax : offEnd + [(7 : UInt8)].length < offMax := by
    simp [offEnd, offMax, objSize]
  exact ⟨hmax, not_write_stays hmax (by decide) (Nat.lt_succ_self offEnd)⟩

end Ranges

end RadosIo

end Nmfs
