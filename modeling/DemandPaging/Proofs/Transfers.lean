import DemandPaging.Proofs.Cuts

/-! # The loops of user copies

A copy goes from chunk to chunk, and for each of them it searches for the frame of the page, round after
round until it finds one. Here both loops run with no bound and with sums and differences that have to
be words. From every reached machine they end, with one round for each page, and do what the copies do.
-/
namespace DemandPaging

variable {π : Type} [ReplacementPolicy π] {m : Machine π} {s esp addr : Nat} {write : Bool}

/-- The search for the frame of an access: how many rounds it takes, and what comes of it. -/
inductive Locates (s esp addr : Nat) (write : Bool) :
    Machine π → Nat → Except MemoryError Nat → Machine π → Prop
  | found {m after : Machine π} {n : Nat} (h : lookUp s esp addr write m = .ok (.ok (some n)) after) :
    Locates s esp addr write m 1 (.ok n) after
  | refused {m after : Machine π} {e : MemoryError} (h : lookUp s esp addr write m = .ok (.error e) after) :
    Locates s esp addr write m 1 (.error e) after
  | again {m m₁ after : Machine π} {rounds : Nat} {r : Except MemoryError Nat}
    (h : lookUp s esp addr write m = .ok (.ok none) m₁) (hrest : Locates s esp addr write m₁ rounds r after) :
    Locates s esp addr write m (rounds + 1) r after

theorem Locates.unique {rounds rounds' : Nat} {r r' : Except MemoryError Nat} {after after' : Machine π}
    (h : Locates s esp addr write m rounds r after) (h' : Locates s esp addr write m rounds' r' after') :
    rounds' = rounds ∧ r' = r ∧ after' = after := by
  induction h generalizing rounds' with
  | found h => cases h' with
    | found h' => simpa using h'.symm.trans h
    | refused h' => cases h'.symm.trans h
    | again h' => cases h'.symm.trans h
  | refused h => cases h' with
    | found h' => cases h'.symm.trans h
    | refused h' => simpa using h'.symm.trans h
    | again h' => cases h'.symm.trans h
  | again h _ ih => cases h' with
    | found h' => cases h'.symm.trans h
    | refused h' => cases h'.symm.trans h
    | again h' hrest =>
      obtain ⟨-, rfl⟩ := EStateM.Result.ok.inj (h'.symm.trans h)
      obtain ⟨rfl, hr, hafter⟩ := ih hrest
      exact ⟨rfl, hr, hafter⟩

/-- The next chunk of a copy, from the bytes that are done: where it is, how many bytes it has, and how many
are done behind it. It has to lie in its page, and in the buffer. -/
def nextChunk? (start count done : Nat) : Option (Nat × Nat × Nat) := do
  let addr ← wordAdd? start done
  let room ← wordSub? pageSize (pageOffset addr)
  let left ← wordSub? count done
  let size := min room left
  let stop ← wordAdd? (pageOffset addr) size
  let next ← wordAdd? done size
  if stop ≤ pageSize ∧ next ≤ count then some (addr, size, next) else none

theorem nextChunk?_eq {start count done : Nat} (hdone : done ≤ count) (hfits : start + count ≤ kernelBase) :
    nextChunk? start count done = some (start + done, chunkSize (start + done) (count - done),
      done + chunkSize (start + done) (count - done)) := by
  have hlimit : kernelBase < wordLimit := by decide
  have hpage : pageSize < wordLimit := by decide
  have hoff := pageOffset_lt (start + done)
  have hsize : chunkSize (start + done) (count - done) =
      min (pageSize - pageOffset (start + done)) (count - done) := rfl
  have haddr : wordAdd? start done = some (start + done) := wordAdd?_of_lt (by omega)
  have hroom := wordSub?_of_le (Nat.le_of_lt hoff)
  have hleft := wordSub?_of_le hdone
  have hstop : wordAdd? (pageOffset (start + done)) (chunkSize (start + done) (count - done)) = some _ :=
    wordAdd?_of_lt (by omega)
  have hnext : wordAdd? done (chunkSize (start + done) (count - done)) = some _ := wordAdd?_of_lt (by omega)
  simp only [nextChunk?, haddr, hroom, hleft, ← hsize, hstop, hnext, Option.bind_eq_bind, Option.bind_some]
  exact if_pos (by omega)

/-- A copy between a buffer and user memory from `start` on, behind as many bytes as are done: the pages
that rounds are about, how many bytes are done in the end, and the error that it stopped at. -/
inductive Transfers (s esp start : Nat) (write : Bool) (move : Nat → Nat → List UInt8 → Machine π → Machine π)
    (buffer : List UInt8) :
    Nat → Machine π → List Nat → Nat → Option MemoryError → Machine π → Prop
  | finished {done : Nat} {m : Machine π} (hdone : ¬done < buffer.length) :
    Transfers s esp start write move buffer done m [] done none m
  | refused {done addr size next rounds : Nat} {m after : Machine π} {e : MemoryError}
    (hdone : done < buffer.length) (hnext : nextChunk? start buffer.length done = some (addr, size, next))
    (h : Locates s esp addr write m rounds (.error e) after) :
    Transfers s esp start write move buffer done m (.replicate rounds (pageDown addr)) done (some e) after
  | moved {done addr size next rounds n stop : Nat} {m m₁ after : Machine π} {visits : List Nat}
    {failure : Option MemoryError}
    (hdone : done < buffer.length) (hnext : nextChunk? start buffer.length done = some (addr, size, next))
    (h : Locates s esp addr write m rounds (.ok n) m₁)
    (hrest : Transfers s esp start write move buffer next
      (move n (pageOffset addr) (slice buffer done size) m₁) visits stop failure after) :
    Transfers s esp start write move buffer done m (.replicate rounds (pageDown addr) ++ visits) stop
      failure after

section Transfers
variable {start done : Nat} {move : Nat → Nat → List UInt8 → Machine π → Machine π} {buffer : List UInt8}

theorem Transfers.unique {visits visits' : List Nat} {stop stop' : Nat} {failure failure' : Option MemoryError}
    {after after' : Machine π} (h : Transfers s esp start write move buffer done m visits stop failure after)
    (h' : Transfers s esp start write move buffer done m visits' stop' failure' after') :
    visits' = visits ∧ stop' = stop ∧ failure' = failure ∧ after' = after := by
  induction h generalizing visits' with
  | finished hdone => cases h' with
    | finished => exact ⟨rfl, rfl, rfl, rfl⟩
    | refused hdone' => exact absurd hdone' hdone
    | moved hdone' => exact absurd hdone' hdone
  | refused hdone hnext h => cases h' with
    | finished hdone' => exact absurd hdone hdone'
    | refused _ hnext' h' =>
      obtain ⟨rfl, -⟩ := Prod.mk.inj (Option.some.inj (hnext'.symm.trans hnext))
      obtain ⟨rfl, he, rfl⟩ := h.unique h'
      exact ⟨rfl, rfl, congrArg some (Except.error.inj he), rfl⟩
    | moved _ hnext' h' =>
      obtain ⟨rfl, -⟩ := Prod.mk.inj (Option.some.inj (hnext'.symm.trans hnext))
      cases (h.unique h').2.1
  | moved hdone hnext h _ ih => cases h' with
    | finished hdone' => exact absurd hdone hdone'
    | refused _ hnext' h' =>
      obtain ⟨rfl, -⟩ := Prod.mk.inj (Option.some.inj (hnext'.symm.trans hnext))
      cases (h.unique h').2.1
    | moved _ hnext' h' hrest =>
      obtain ⟨rfl, hsize⟩ := Prod.mk.inj (Option.some.inj (hnext'.symm.trans hnext))
      obtain ⟨rfl, rfl⟩ := Prod.mk.inj hsize
      obtain ⟨rfl, hn, rfl⟩ := h.unique h'
      obtain rfl := Except.ok.inj hn
      obtain ⟨rfl, hsame⟩ := ih hrest
      exact ⟨rfl, hsame⟩

end Transfers

/-! ## Pages on the way -/

/-- Each page of the bytes from `first` on that are reached before `stop`, up to the one at `stop`, is there
once, and in this order. -/
structure OncePerPage (start first count stop : Nat) (visits : List Nat) : Prop where
  increasing : visits.Pairwise (· < ·)
  reached : ∀ va, va ∈ visits ↔ ∃ i, first ≤ i ∧ i < count ∧ i ≤ stop ∧ va = pageDown (start + i)

namespace OncePerPage
variable {start done count stop : Nat} {visits : List Nat}

theorem nil (hdone : ¬done < count) : OncePerPage start done count stop [] := by
  refine ⟨.nil, fun va => ?_⟩
  simp only [List.not_mem_nil, false_iff]
  rintro ⟨i, hfirst, hlast, -⟩
  omega

theorem single (hdone : done < count) : OncePerPage start done count done [pageDown (start + done)] := by
  refine ⟨List.pairwise_singleton .., fun va => ?_⟩
  rw [List.mem_singleton]
  constructor
  · rintro rfl
    exact ⟨done, Nat.le_refl _, hdone, Nat.le_refl _, rfl⟩
  · rintro ⟨i, hfirst, -, hlast, rfl⟩
    rw [Nat.le_antisymm hlast hfirst]

theorem cons (hdone : done < count)
    (h : OncePerPage start (done + chunkSize (start + done) (count - done)) count stop visits)
    (hstop : done + chunkSize (start + done) (count - done) ≤ stop) :
    OncePerPage start done count stop (pageDown (start + done) :: visits) := by
  have hpos := chunkSize_pos (start + done) (Nat.sub_pos_of_lt hdone)
  have hroom := chunkSize_le (start + done) (count - done)
  constructor
  · refine List.pairwise_cons.mpr ⟨fun va hva => ?_, h.increasing⟩
    obtain ⟨i, hfirst, hlast, -, rfl⟩ := (h.reached va).mp hva
    -- There is more to come, so that the chunk ends with its page.
    have hfull : chunkSize (start + done) (count - done) = pageSize - pageOffset (start + done) := by
      simp only [chunkSize] at hfirst ⊢
      omega
    simp only [hfull, pageDown, pageOffset, pageSize] at hfirst ⊢
    omega
  · intro va
    rw [List.mem_cons, h.reached]
    constructor
    · rintro (rfl | ⟨i, hfirst, hlast⟩)
      · exact ⟨done, Nat.le_refl _, hdone, by omega, rfl⟩
      · exact ⟨i, by omega, hlast⟩
    · rintro ⟨i, hfirst, hlast, hle, rfl⟩
      by_cases hin : i < done + chunkSize (start + done) (count - done)
      · left
        have hsame : pageDown (start + done + (i - done)) = pageDown (start + done) := pageDown_add (by omega)
        rwa [Nat.add_assoc, Nat.add_sub_cancel' hfirst] at hsame
      · exact .inr ⟨i, Nat.le_of_not_lt hin, hlast, hle, rfl⟩

/-- A range of user memory lies on pages of user memory. -/
theorem user (h : OncePerPage start 0 count stop visits) (hfits : start + count ≤ kernelBase) :
    ∀ va ∈ visits, va + pageSize ≤ kernelBase := by
  intro va hva
  obtain ⟨i, -, hlast, -, rfl⟩ := (h.reached va).mp hva
  simp only [pageDown, pageSize, kernelBase] at hfits ⊢
  omega

end OncePerPage

section Chunks
variable {start done : Nat} {buffer : List UInt8}

theorem chunked_transfers {I : Machine π → Prop} (body : Nat → List UInt8 → Run π Copied)
    (move : Nat → Nat → List UInt8 → Machine π → Machine π)
    (hkeeps : ∀ addr chunk, Run.Preserves I (body addr chunk))
    (hbody : ∀ {m}, I m → ∀ addr chunk,
      (∃ e after, body addr chunk m = .ok ([], some e) after ∧
        Locates s esp addr write m 1 (.error e) after) ∨
      ∃ n m₁ bytes, body addr chunk m = .ok (bytes, none) (move n (pageOffset addr) chunk m₁) ∧
        Locates s esp addr write m 1 (.ok n) m₁)
    (hm : I m) (hdone : done ≤ buffer.length) (hfits : start + buffer.length ≤ kernelBase) :
    ∃ answer after visits stop, chunked body (start + done) (buffer.drop done) m = .ok answer after ∧
      Transfers s esp start write move buffer done m visits stop answer.2 after ∧
      OncePerPage start done buffer.length stop visits ∧ done ≤ stop ∧ stop ≤ buffer.length ∧
      (answer.2 = none ↔ stop = buffer.length) := by
  induction hleft : buffer.length - done using Nat.strongRecOn generalizing m done with
  | ind left ih =>
  have hlen : (buffer.drop done).length = left := by rw [List.length_drop, hleft]
  by_cases hmore : done < buffer.length
  · have hpos : 0 < (buffer.drop done).length := by omega
    have hnext := nextChunk?_eq hdone hfits
    rw [hleft] at hnext
    have hsize := chunkSize_pos (start + done) (show 0 < left by omega)
    have hle : chunkSize (start + done) left ≤ left := Nat.min_le_right ..
    rw [chunked_of_pos hpos, hlen, List.drop_drop]
    rcases hbody hm (start + done) (slice buffer done (chunkSize (start + done) left)) with
      ⟨e, after, hx, hlocates⟩ | ⟨n, m₁, bytes, hx, hlocates⟩
    · refine ⟨_, after, _, done, Run.followed_of_error hx, .refused hmore hnext hlocates, .single hmore,
        Nat.le_refl _, hdone, ?_⟩
      simp only [reduceCtorEq, false_iff]
      omega
    · have hkept := ((hkeeps _ _).ends m hm).of_ok hx
      have hmoved : done + chunkSize (start + done) left ≤ buffer.length := by omega
      obtain ⟨⟨rest, failure⟩, after, visits, stop, hy, htransfers, honce, hstop, hend, hdone'⟩ :=
        ih (left - chunkSize (start + done) left) (by omega) hkept hmoved (by omega)
      rw [← Nat.add_assoc] at hy
      refine ⟨_, after, _, stop, Run.followed_of_ok hx hy, .moved hmore hnext hlocates htransfers, ?_,
        by omega, hend, hdone'⟩
      exact .cons hmore (hleft ▸ honce) (hleft ▸ hstop)
  · have hall : done = buffer.length := by omega
    rw [List.drop_of_length_le (Nat.le_of_eq hall.symm), chunked_nil]
    exact ⟨([], none), m, [], done, rfl, .finished hmore, .nil hmore, Nat.le_refl _, hdone, by simp [hall]⟩

end Chunks

/-! ## Copies of either kind -/

theorem pageFor_locates (h : m.memory.Valid) (hs : s < m.spaces.size) (esp addr : Nat) (write : Bool)
    (rounds : Nat) :
    Attempt.Ends False (pageFor s esp addr write (rounds + 1)) m
      (fun n after => Locates s esp addr write m 1 (.ok n) after)
      fun e after => Locates s esp addr write m 1 (.error e) after := by
  rw [pageFor_succ]
  apply Attempt.ends_bind.mpr
  refine (lookUp_primes h hs esp addr write).answered.imp ?_ ?_
  · rintro _ after ⟨hx, n, rfl, -⟩
    exact .found hx
  · rintro e after ⟨hx, -⟩
    exact .refused hx

theorem readChunk_locates (h : m.memory.Valid) (hs : s < m.spaces.size) (esp addr count : Nat) :
    (∃ e after, copied (readChunk s esp addr count) m = .ok ([], some e) after ∧
      Locates s esp addr false m 1 (.error e) after) ∨
    ∃ n after bytes, copied (readChunk s esp addr count) m = .ok (bytes, none) after ∧
      Locates s esp addr false m 1 (.ok n) after := by
  have hlocates := (pageFor_locates h hs esp addr false 1).answered
  unfold Attempt.Ends at hlocates
  split at hlocates
  · rename_i n after _
    exact .inr ⟨n, after, _, copied_of_ok (readChunk_of_ok count hlocates.1), hlocates.2⟩
  · rename_i e after _
    exact .inl ⟨e, after, copied_of_error (Attempt.bind_of_error hlocates.1), hlocates.2⟩
  · exact hlocates.elim

omit [ReplacementPolicy π] in
/-- Puts bytes into a frame. -/
def Machine.putBytes (n offset : Nat) (bytes : List UInt8) (m : Machine π) : Machine π :=
  m.setContents n (overwrite (m.contents n) offset bytes)

theorem writeChunk_locates (h : m.memory.Valid) (hs : s < m.spaces.size) (esp addr : Nat)
    (chunk : List UInt8) :
    (∃ e after, written (writeChunk s esp addr chunk) m = .ok ([], some e) after ∧
      Locates s esp addr true m 1 (.error e) after) ∨
    ∃ n m₁ bytes, written (writeChunk s esp addr chunk) m =
        .ok (bytes, none) (Machine.putBytes n (pageOffset addr) chunk m₁) ∧
      Locates s esp addr true m 1 (.ok n) m₁ := by
  have hlocates := (pageFor_locates h hs esp addr true 1).answered
  unfold Attempt.Ends at hlocates
  split at hlocates
  · rename_i n after _
    have hx : writeChunk s esp addr chunk m =
        .ok (.ok ⟨⟩) (Machine.putBytes n (pageOffset addr) chunk after) := Attempt.bind_of_ok hlocates.1
    exact .inr ⟨n, after, [], by rw [written_eq, hx], hlocates.2⟩
  · rename_i e after _
    have hx : writeChunk s esp addr chunk m = .ok (.error e) after := Attempt.bind_of_error hlocates.1
    exact .inl ⟨e, after, by rw [written_eq, hx], hlocates.2⟩
  · exact hlocates.elim

/-- The loops of a copy end, and in no other way than at this failure and in this machine. There is one round
for each page that was reached, and all of these are pages of user memory. -/
structure Transferred (m : Machine π) (s esp start : Nat) (write : Bool)
    (move : Nat → Nat → List UInt8 → Machine π → Machine π) (buffer : List UInt8) (visits : List Nat)
    (stop : Nat) (failure : Option MemoryError) (after : Machine π) : Prop where
  outcome : ∀ visits' stop' failure' after',
    Transfers s esp start write move buffer 0 m visits' stop' failure' after' ↔
      visits' = visits ∧ stop' = stop ∧ failure' = failure ∧ after' = after
  once : OncePerPage start 0 buffer.length stop visits
  user : ∀ va ∈ visits, va + pageSize ≤ kernelBase
  complete : failure = none ↔ stop = buffer.length

theorem Transferred.of_transfers {start stop : Nat} {buffer : List UInt8} {visits : List Nat}
    {move : Nat → Nat → List UInt8 → Machine π → Machine π} {failure : Option MemoryError} {after : Machine π}
    (h : Transfers s esp start write move buffer 0 m visits stop failure after)
    (honce : OncePerPage start 0 buffer.length stop visits) (hfits : start + buffer.length ≤ kernelBase)
    (hcomplete : failure = none ↔ stop = buffer.length) :
    Transferred m s esp start write move buffer visits stop failure after := by
  refine ⟨fun visits' stop' failure' after' => ⟨h.unique, ?_⟩, honce, honce.user hfits, hcomplete⟩
  rintro ⟨rfl, rfl, rfl, rfl⟩
  exact h

theorem copyFromUser_transfers (h : m.memory.Valid) (hs : s < m.spaces.size) (esp : Nat) {start : Nat}
    {buffer : List UInt8} (hfits : start + buffer.length ≤ kernelBase) :
    ∃ answer after visits stop, copyFromUser s esp start buffer.length m = .ok answer after ∧
      Transferred m s esp start false (fun _ _ _ m => m) buffer visits stop answer.2 after := by
  obtain ⟨answer, after, visits, stop, hx, htransfers, honce, -, -, hcomplete⟩ :=
    chunked_transfers (fun a chunk => copied (readChunk s esp a chunk.length)) (fun _ _ _ m => m)
      (fun a chunk => preserves_copied ((survives_valid s).readChunk esp a chunk.length))
      (fun hm a chunk => readChunk_locates hm.1 hm.2 esp a chunk.length) ⟨h, hs⟩ (Nat.zero_le _) hfits
  refine ⟨answer, after, visits, stop, ?_, .of_transfers htransfers honce hfits hcomplete⟩
  rw [copyFromUser_of_fits hfits, readChunks_eq]
  exact hx

/-- The error that an attempt ends in. -/
def failureOf : Except MemoryError Unit → Option MemoryError
  | .ok _ => none
  | .error e => some e

theorem copyToUser_transfers (h : m.memory.Valid) (hs : s < m.spaces.size) (esp : Nat) {start : Nat}
    {buffer : List UInt8} (hfits : start + buffer.length ≤ kernelBase) :
    ∃ answer after visits stop, copyToUser s esp start buffer m = .ok answer after ∧
      Transferred m s esp start true Machine.putBytes buffer visits stop (failureOf answer) after := by
  obtain ⟨answer, after, visits, stop, hx, htransfers, honce, -, -, hcomplete⟩ :=
    chunked_transfers (fun a chunk => written (writeChunk s esp a chunk)) Machine.putBytes
      (fun a chunk => preserves_written ((survives_valid s).writeChunk esp a chunk))
      (fun hm a chunk => writeChunk_locates hm.1 hm.2 esp a chunk) ⟨h, hs⟩ (Nat.zero_le _) hfits
  have hwritten : written (copyToUser s esp start buffer) m = .ok answer after := by
    rw [copyToUser_of_fits hfits, writeChunks_eq]
    exact hx
  have hends := Transferred.of_transfers htransfers honce hfits hcomplete
  rw [written_eq] at hwritten
  split at hwritten
  · rename_i last hcopy
    obtain ⟨rfl, rfl⟩ := EStateM.Result.ok.inj hwritten
    exact ⟨.ok ⟨⟩, last, visits, stop, hcopy, hends⟩
  · rename_i e last hcopy
    obtain ⟨rfl, rfl⟩ := EStateM.Result.ok.inj hwritten
    exact ⟨.error e, last, visits, stop, hcopy, hends⟩
  · cases hwritten

theorem wordAdd?_any_iff {a b limit : Nat} (h : limit < wordLimit) :
    (wordAdd? a b).any (decide <| · ≤ limit) = true ↔ a + b ≤ limit := by
  unfold wordAdd?
  split
  · simp
  · simp only [Option.any_none, Bool.false_eq_true, false_iff]
    omega

variable {count : Nat} {device : Device} {policy : π} {files : FileStore}

/-- A range is user memory if its end is a word and not in the kernel. Over such a range a copy ends, its
loops take one round for each page that they reach, and no sum or difference overflows. Any other range is
refused, and nothing changes. -/
theorem user_copies_end (h : Reached (Machine.start count device policy files) m) (hs : s < m.spaces.size)
    (esp start : Nat) (buffer : List UInt8) :
    ((wordAdd? start buffer.length).any (· ≤ kernelBase) = true →
      (∃ answer after visits stop, copyFromUser s esp start buffer.length m = .ok answer after ∧
        Transferred m s esp start false (fun _ _ _ m => m) buffer visits stop answer.2 after) ∧
      ∃ answer after visits stop, copyToUser s esp start buffer m = .ok answer after ∧
        Transferred m s esp start true Machine.putBytes buffer visits stop (failureOf answer) after) ∧
    ((wordAdd? start buffer.length).any (· ≤ kernelBase) = false →
      copyFromUser s esp start buffer.length m = .ok ([], some .protectionViolation) m ∧
      copyToUser s esp start buffer m = .ok (.error .protectionViolation) m) := by
  have hvalid := h.valid (Machine.valid_start ..)
  have hrange : (wordAdd? start buffer.length).any (· ≤ kernelBase) = true ↔
      start + buffer.length ≤ kernelBase := wordAdd?_any_iff (by decide)
  constructor
  · intro huser
    have hfits := hrange.mp huser
    exact ⟨copyFromUser_transfers hvalid hs esp hfits, copyToUser_transfers hvalid hs esp hfits⟩
  · intro hkernel
    have hbeyond : inUserMemory start buffer.length = false := by
      apply decide_eq_false
      rw [← hrange, hkernel]
      exact Bool.false_ne_true
    simp only [copyFromUser, copyToUser, hbeyond]
    exact ⟨rfl, rfl⟩

/-- Two pages and one frame. A write across the end of the first looks each of them up once. -/
theorem user_copies_end_evicting : ∃ m : Machine Fifo,
    Reached (.start 1 { name := "swap", kind := .swap, size := 16, disk := .zeroed 16 } {} {}) m ∧
    ∃ after visits, copyToUser 0 0 8190 [1, 2, 3, 4] m = .ok (.ok ⟨⟩) after ∧
      Transferred m 0 0 8190 true Machine.putBytes [1, 2, 3, 4] visits 4 none after ∧
      4096 ∈ visits ∧ 8192 ∈ visits := by
  let written (m : Machine Fifo) : Bool := match copyToUser 0 0 8190 [1, 2, 3, 4] m with
    | .ok (.ok _) _ => true
    | _ => false
  obtain ⟨calls, m, hruns, hcheck⟩ := Runs.of_afterAll (m := .start 1
      { name := "swap", kind := .swap, size := 16, disk := .zeroed 16 } {} {}) Operation.Allowed
    [.createProcess 1, .insert 0 4096 true (.anonymous .zeroed none),
      .insert 0 8192 true (.anonymous .zeroed none)]
    (fun m => decide (0 < m.spaces.size) && written m) (by decide +kernel)
  obtain ⟨hs, hwritten⟩ := Bool.and_eq_true_iff.mp hcheck
  have hreached := Reached.of_runs hruns
  obtain ⟨hends, -⟩ := user_copies_end hreached (of_decide_eq_true hs) 0 8190 [1, 2, 3, 4]
  obtain ⟨-, answer, after, visits, stop, hx, htransferred⟩ := hends (by decide)
  simp only [written, hx] at hwritten
  cases answer with
  | error e => cases hwritten
  | ok answer =>
    obtain rfl : stop = 4 := htransferred.complete.mp rfl
    refine ⟨m, hreached, after, visits, hx, htransferred, ?_, ?_⟩
    · exact (htransferred.once.reached 4096).mpr ⟨0, by decide, by decide, by decide, rfl⟩
    · exact (htransferred.once.reached 8192).mpr ⟨2, by decide, by decide, by decide, rfl⟩

end DemandPaging
