import ElCache.Coordinator.Spec

/-!
# Concurrent puts through the coordinator

A put writes the memory level and then the disk level, and no lock spans the two writes. When
several puts of one key run at once, the last writer of one level need not be the last writer of the
other. `levels_after_puts` says what the levels then hold: in every interleaving, the descriptor in
a level is that of the put that wrote this level last, so once all puts have returned the levels
agree exactly if the two last writers have put the same value.
-/

namespace ElCache

open Slice

namespace CacheCoordinator

variable {H : ByteBuffer → Hash128} {K : Set ByteBuffer} {P : Set Put} {p : PutCall}

/-! ## The steps of a put -/

/-- The end of a `put`, after both levels have answered. -/
def finishPut (memoryStatus diskStatus : Option Status) : Prog CacheCoordinator Status :=
  match diskStatus.filter (!·.isOk) with
  | some status => pure status
  | none =>
    if memoryStatus.isSome || diskStatus.isSome then pure .makeOk
    else pure (.error .internalError "No storage available")

/-- What is left of a `put` after the memory level has answered. -/
def continuePut (H : ByteBuffer → Hash128) (p : PutCall) (memoryStatus : Option Status) :
    Prog CacheCoordinator Status :=
  match memoryStatus.filter (!·.isOk) with
  | some status => pure status
  | none => putToDisk H p >>= finishPut memoryStatus

theorem put_eq (H : ByteBuffer → Hash128) (p : PutCall) :
    put H p = putToMemory H p >>= continuePut H p := rfl

/-- Every step of a put keeps the invariants of the levels. -/
theorem safe_put (henv : p.env.Clean) (hm : p.memoryPut ∈ P) (hd : p.diskPut ∈ P)
    (hK : p.memoryPut.chunks ⊆ K) : (put H p).Safe (Inv H K P) fun _ => True := by
  have hmemory : (putToMemory H p).Safe (Inv H K P) fun _ => True := by
    rw [putToMemory]
    split
    · exact Prog.safe_pure trivial
    · refine Prog.safe_atomic fun c hc => ⟨?_, trivial⟩
      refine hc.onMemory fun m hm' => ?_
      exact (((MemoryCache.steps_put hm hK).safe fun _ _ h hstep => h.step hstep).run hm').1
  have hdisk : (putToDisk H p).Safe (Inv H K P) fun _ => True := by
    rw [putToDisk]
    split
    · exact Prog.safe_pure trivial
    · refine Prog.safe_atomic fun c hc => ⟨?_, trivial⟩
      exact hc.onDisk fun d hd' => hd'.put henv hd hK
  rw [put_eq]
  refine hmemory.bind fun memoryStatus _ => ?_
  rw [continuePut]
  split
  · exact Prog.safe_pure trivial
  · refine hdisk.bind fun diskStatus _ => ?_
    rw [finishPut]
    split
    · exact Prog.safe_pure trivial
    · split
      · exact Prog.safe_pure trivial
      · exact Prog.safe_pure trivial

/-- A put that skips no level starts with the step of the memory level. -/
theorem put_step (hopts : p.opts = {}) :
    put H p = .step (fun c => ((onMemory (MemoryCache.put H p.memoryPut)).run c).2)
      fun c => continuePut H p ((onMemory (MemoryCache.put H p.memoryPut)).run c).1 := by
  rw [put_eq, putToMemory, hopts]
  rfl

/-- After the memory level has taken the value, a put that skips no level goes on with the step of
the disk level and returns. -/
theorem continuePut_step (hopts : p.opts = {}) (henv : p.env.Clean)
    (hacc : MemoryCache.Accepts p.memoryPut) :
    ∃ n, continuePut H p (some .makeOk) =
        .step (fun c => ((onDisk (DiskCache.put H p.env p.diskPut)).run c).2) n ∧
      ∀ c, n c = .ret .makeOk := by
  have hgo : (some Status.makeOk).filter (!·.isOk) = none := rfl
  rw [continuePut, hgo, putToDisk, hopts]
  refine ⟨_, rfl, fun c => ?_⟩
  show finishPut (some .makeOk) ((onDisk (DiskCache.put H p.env p.diskPut)).run c).1 = _
  rw [run_onDisk]
  cases c.disk with
  | none => rfl
  | some d =>
    have hkey : p.diskPut.key.size ≤ maxKeySize := hacc.1
    rw [Option.map_some, (DiskCache.run_put henv hkey d).1]
    rfl

/-! ## Puts of one key -/

section
variable {ι : Type*} [DecidableEq ι] (H) (key : CacheKey) (calls : ι → PutCall)

/-- The calls put values under one key, with default options, and no disk write fails. -/
structure PutsOf (K : Set ByteBuffer) : Prop where
  key_eq : ∀ i, (calls i).key = key
  opts_eq : ∀ i, (calls i).opts = {}
  clean : ∀ i, (calls i).env.Clean
  chunks : ∀ i, (calls i).memoryPut.chunks ⊆ K

/-- The calls whose arguments the levels accept. -/
def accepted (i : ι) : Bool := decide (MemoryCache.Accepts (calls i).memoryPut)

/-- The calls interleaved by a schedule, on a coordinator. -/
def putPool (c : CacheCoordinator) (sched : List ι) : Pool ι CacheCoordinator Status :=
  (Pool.start c fun i => put H (calls i)).schedule sched

/-- Where a put stands after a number of turns. -/
def AtTurn (p : PutCall) : Nat → Prog CacheCoordinator Status → Prop
  | 0, prog => prog = put H p
  | 1, prog => if MemoryCache.Accepts p.memoryPut then prog = continuePut H p (some .makeOk)
      else ∃ status, prog = .ret status
  | _, prog => ∃ status, prog = .ret status

/-- The descriptor a level holds under the key: that of the put which wrote it last, in turn number
`k`, or the one it started with. -/
def lastWritten (put : PutCall → Put) (k : Nat) (sched : List ι) (d₀ : Option ValueDescriptor) :
    Option ValueDescriptor :=
  (Pool.lastTurn (accepted calls) k sched).elim d₀ fun i => some ((put (calls i)).descriptor H)

/-- What holds after a schedule: each level has the descriptor written last, and each call has taken
its turns. -/
structure Written (m₀ : MemoryCache) (d₀ : DiskCache) (sched : List ι)
    (Q : Pool ι CacheCoordinator Status) : Prop where
  memory : ∃ m, Q.shared.memory = some m ∧
    m.descriptors key = lastWritten H calls PutCall.memoryPut 0 sched (m₀.descriptors key)
  disk : ∃ d, Q.shared.disk = some d ∧
    d.descriptors key = lastWritten H calls PutCall.diskPut 1 sched (d₀.descriptors key)
  threads : ∀ i, AtTurn H (calls i) (sched.count i) (Q.threads i).prog

end

section
variable {ι : Type*} [DecidableEq ι] {key : CacheKey} {calls : ι → PutCall}
  {m₀ : MemoryCache} {d₀ : DiskCache} {sched : List ι} {Q : Pool ι CacheCoordinator Status} {i : ι}

/-- A turn that is not the turn number `k` of an accepted call does not count as the last one. -/
theorem lastWritten_cons_of_not {put : PutCall → Put} {k : Nat}
    (h : ¬ (sched.count i = k ∧ accepted calls i = true)) (e : Option ValueDescriptor) :
    lastWritten H calls put k (i :: sched) e = lastWritten H calls put k sched e := by
  rw [lastWritten, Pool.lastTurn, if_neg h]
  rfl

theorem lastWritten_cons {put : PutCall → Put} {k : Nat} (hk : sched.count i = k)
    (hacc : MemoryCache.Accepts (calls i).memoryPut) (e : Option ValueDescriptor) :
    lastWritten H calls put k (i :: sched) e = some ((put (calls i)).descriptor H) := by
  rw [lastWritten, Pool.lastTurn, if_pos ⟨hk, decide_eq_true hacc⟩]
  rfl

/-- The threads after a turn: the one whose turn it was has moved on. -/
theorem Written.threads_cons (h : Written H key calls m₀ d₀ sched Q)
    {Q' : Pool ι CacheCoordinator Status} (hother : ∀ j, j ≠ i → Q'.threads j = Q.threads j)
    (hself : AtTurn H (calls i) (sched.count i + 1) (Q'.threads i).prog) (j : ι) :
    AtTurn H (calls j) ((i :: sched).count j) (Q'.threads j).prog := by
  by_cases hj : j = i
  · subst hj
    rwa [List.count_cons_self]
  · rw [List.count_cons_of_ne (Ne.symm hj), hother j hj]
    exact h.threads j

/-- A turn of a call that has returned. -/
theorem Written.turn_ret (h : Written H key calls m₀ d₀ sched Q) {status : Status}
    (hret : (Q.threads i).prog = .ret status) (hcount : sched.count i ≠ 0)
    (hlast : ¬ (sched.count i = 1 ∧ accepted calls i = true)) :
    Written H key calls m₀ d₀ (i :: sched) (Q.turn i) := by
  rw [Pool.turn_ret hret]
  have hself : AtTurn H (calls i) (sched.count i + 1) (Q.threads i).prog := by
    obtain ⟨n, hn⟩ := Nat.exists_eq_succ_of_ne_zero hcount
    rw [hn]
    exact ⟨status, hret⟩
  refine ⟨?_, ?_, h.threads_cons (fun _ _ => rfl) hself⟩
  · rw [lastWritten_cons_of_not fun hk => hcount hk.1]
    exact h.memory
  · rw [lastWritten_cons_of_not hlast]
    exact h.disk

/-- The first turn of a call: the memory level takes the value, or rejects it and the call
returns. -/
theorem Written.turn_first (h : Written H key calls m₀ d₀ sched Q) (hputs : PutsOf key calls K)
    (hinv : Q.shared.Inv H K P) (hcount : sched.count i = 0) :
    Written H key calls m₀ d₀ (i :: sched) (Q.turn i) := by
  have hprog := h.threads i
  rw [hcount] at hprog
  obtain ⟨hshared, hnext, hother⟩ := Pool.turn_step (Eq.trans hprog (put_step (hputs.opts_eq i)))
  obtain ⟨m, hm, hdesc⟩ := h.memory
  obtain ⟨d, hd, hdisk⟩ := h.disk
  rw [run_onMemory, hm] at hshared hnext
  have hself : AtTurn H (calls i) (sched.count i + 1) ((Q.turn i).threads i).prog := by
    rw [hcount]
    simp only [AtTurn]
    split
    · next hacc =>
      rw [hnext, Option.map_some, (MemoryCache.run_put (hinv.memory m hm).arc hacc).1]
    · next hacc =>
      rw [hnext, Option.map_some, continuePut, Option.filter_some]
      simp only [(MemoryCache.run_put_rejected hacc).1, Bool.not_false, if_true]
      exact ⟨_, rfl⟩
  refine ⟨⟨_, congrArg CacheCoordinator.memory hshared, ?_⟩,
    ⟨d, (congrArg CacheCoordinator.disk hshared).trans hd, ?_⟩, h.threads_cons hother hself⟩
  · by_cases hacc : MemoryCache.Accepts (calls i).memoryPut
    · rw [lastWritten_cons hcount hacc, (MemoryCache.run_put (hinv.memory m hm).arc hacc).2.1,
        show (calls i).memoryPut.key = key from hputs.key_eq i, Function.update_self]
    · rw [lastWritten_cons_of_not fun hk => hacc (of_decide_eq_true hk.2)]
      simp only [(MemoryCache.run_put_rejected hacc).2]
      exact hdesc
  · rw [lastWritten_cons_of_not fun hk => by rw [hcount] at hk; cases hk.1]
    exact hdisk

/-- The second turn of an accepted call: the disk level takes the value. -/
theorem Written.turn_second (h : Written H key calls m₀ d₀ sched Q) (hputs : PutsOf key calls K)
    (hcount : sched.count i = 1) (hacc : MemoryCache.Accepts (calls i).memoryPut) :
    Written H key calls m₀ d₀ (i :: sched) (Q.turn i) := by
  have hprog := h.threads i
  rw [hcount] at hprog
  simp only [AtTurn, if_pos hacc] at hprog
  obtain ⟨n, hstep, hret⟩ := continuePut_step (H := H) (hputs.opts_eq i) (hputs.clean i) hacc
  obtain ⟨hshared, hnext, hother⟩ := Pool.turn_step (hprog.trans hstep)
  obtain ⟨m, hm, hdesc⟩ := h.memory
  obtain ⟨d, hd, hdisk⟩ := h.disk
  rw [run_onDisk, hd] at hshared
  have hself : AtTurn H (calls i) (sched.count i + 1) ((Q.turn i).threads i).prog := by
    rw [hcount]
    exact ⟨_, hnext.trans (hret _)⟩
  refine ⟨⟨m, (congrArg CacheCoordinator.memory hshared).trans hm, ?_⟩,
    ⟨_, congrArg CacheCoordinator.disk hshared, ?_⟩, h.threads_cons hother hself⟩
  · rw [lastWritten_cons_of_not fun hk => by rw [hcount] at hk; cases hk.1]
    exact hdesc
  · have hsize : (calls i).diskPut.key.size ≤ maxKeySize := hacc.1
    rw [lastWritten_cons hcount hacc, (DiskCache.run_put (hputs.clean i) hsize d).2.1,
      show (calls i).diskPut.key = key from hputs.key_eq i, Function.update_self]

/-- One turn, whatever it is. -/
theorem Written.turn (h : Written H key calls m₀ d₀ sched Q) (hputs : PutsOf key calls K)
    (hinv : Q.shared.Inv H K P) (i : ι) : Written H key calls m₀ d₀ (i :: sched) (Q.turn i) := by
  have hprog := h.threads i
  rcases hcount : sched.count i with _ | _ | n
  · exact h.turn_first hputs hinv hcount
  · by_cases hacc : MemoryCache.Accepts (calls i).memoryPut
    · exact h.turn_second hputs hcount hacc
    · rw [hcount] at hprog
      simp only [AtTurn, Nat.zero_add, if_neg hacc] at hprog
      obtain ⟨status, hret⟩ := hprog
      exact h.turn_ret hret (by rw [hcount]; exact Nat.one_ne_zero)
        fun hk => hacc (of_decide_eq_true hk.2)
  · rw [hcount] at hprog
    obtain ⟨status, hret⟩ := hprog
    refine h.turn_ret hret (by rw [hcount]; exact Nat.succ_ne_zero _) fun hk => ?_
    rw [hcount] at hk
    cases hk.1

/-- Every schedule of the calls. -/
theorem written_putPool (hputs : PutsOf key calls K) {c : CacheCoordinator}
    (hc : c.Inv H K (allowedPuts K)) (hm : c.memory = some m₀) (hd : c.disk = some d₀)
    (sched : List ι) : Written H key calls m₀ d₀ sched (putPool H calls c sched) := by
  induction sched with
  | nil => exact ⟨⟨m₀, hm, rfl⟩, ⟨d₀, hd, rfl⟩, fun _ => rfl⟩
  | cons i sched ih =>
    have hreach : Pool.Reach (fun _ _ => False) _ (putPool H calls c sched) :=
      Pool.reach_schedule _ sched
    have hinv : (putPool H calls c sched).shared.Inv H K (allowedPuts K) :=
      (hreach.inv (fun _ _ _ h => h.elim) (fun i => (safe_put (hputs.clean i) (hputs.chunks i)
        (hputs.chunks i) (hputs.chunks i)).from) hc).1
    exact ih.turn hputs hinv i

/-! ## Agreement -/

/-- The descriptors of the key in the two levels describe one value. -/
def Agree (H : ByteBuffer → Hash128) (key : CacheKey) (m : MemoryCache) (d : DiskCache) : Prop :=
  ∃ desc desc' v, m.descriptors key = some desc ∧ d.descriptors key = some desc' ∧
    Describes H desc v ∧ Describes H desc' v

/-- The descriptors of two puts describe one value exactly if the puts have the same value, when the
hash is injective on the chunks. -/
theorem describe_same_iff (hinj : Set.InjOn H K) {p q : Put} (hp : p.chunks ⊆ K)
    (hq : q.chunks ⊆ K) : (∃ v, Describes H (p.descriptor H) v ∧ Describes H (q.descriptor H) v) ↔
      p.value.bytes = q.value.bytes := by
  constructor
  · rintro ⟨v, hpv, hqv⟩
    have hids : chunkIds H p.value.bytes = chunkIds H q.value.bytes := by
      rw [← (p.describes H).chunks, hpv.chunks, ← hqv.chunks, (q.describes H).chunks]
    have hhash := congrArg (List.map ChunkId.hash) hids
    rw [chunkIds, chunkIds, List.map_map, List.map_map] at hhash
    exact eq_of_map_blocks hinj chunkSize_pos hp hq hhash
  · intro h
    exact ⟨p.value.bytes, p.describes H, h ▸ q.describes H⟩

/-- Once an accepted call has returned, it has taken both its turns. -/
theorem Written.two_le_count (h : Written H key calls m₀ d₀ sched Q) (hputs : PutsOf key calls K)
    (hacc : MemoryCache.Accepts (calls i).memoryPut) {status : Status}
    (hret : (Q.threads i).prog = .ret status) : 2 ≤ sched.count i := by
  have hprog := h.threads i
  rw [hret] at hprog
  rcases hcount : sched.count i with _ | _ | n
  · rw [hcount, AtTurn, put_step (hputs.opts_eq i)] at hprog
    cases hprog
  · rw [hcount] at hprog
    simp only [AtTurn, Nat.zero_add, if_pos hacc] at hprog
    obtain ⟨n, hstep, -⟩ := continuePut_step (H := H) (hputs.opts_eq i) (hputs.clean i) hacc
    rw [hstep] at hprog
    cases hprog
  · exact Nat.le_add_left 2 n

end

/-- Let any number of puts of one key, with default options, be interleaved in any way. At every
point each level holds the descriptor of the accepted put that wrote this level last, or the one it
started with. Once all puts have returned, the levels agree exactly if the put that wrote the memory
level last and the put that wrote the disk level last have the same value. -/
theorem levels_after_puts (H : ByteBuffer → Hash128) {K : Set ByteBuffer} (hinj : Set.InjOn H K)
    {ι : Type*} [DecidableEq ι] (key : CacheKey) (calls : ι → PutCall) (hputs : PutsOf key calls K)
    (c : CacheCoordinator) (hc : c.Inv H K (allowedPuts K)) {m₀ : MemoryCache} {d₀ : DiskCache}
    (hm : c.memory = some m₀) (hd : c.disk = some d₀) (sched : List ι) :
    ∃ m d, (putPool H calls c sched).shared.memory = some m ∧
      (putPool H calls c sched).shared.disk = some d ∧
      m.descriptors key = lastWritten H calls PutCall.memoryPut 0 sched (m₀.descriptors key) ∧
      d.descriptors key = lastWritten H calls PutCall.diskPut 1 sched (d₀.descriptors key) ∧
      ((∀ i, ∃ status, ((putPool H calls c sched).threads i).prog = .ret status) →
        (∃ i, MemoryCache.Accepts (calls i).memoryPut) →
        ∃ i j, Pool.lastTurn (accepted calls) 0 sched = some i ∧
          Pool.lastTurn (accepted calls) 1 sched = some j ∧
          (Agree H key m d ↔ (calls i).value.bytes = (calls j).value.bytes)) := by
  have hwritten := written_putPool hputs hc hm hd sched
  obtain ⟨m, hm', hdesc⟩ := hwritten.memory
  obtain ⟨d, hd', hdisk⟩ := hwritten.disk
  refine ⟨m, d, hm', hd', hdesc, hdisk, fun hret ⟨a, hacc⟩ => ?_⟩
  obtain ⟨status, hstatus⟩ := hret a
  have hcount := hwritten.two_le_count hputs hacc hstatus
  have ha : accepted calls a = true := decide_eq_true hacc
  obtain ⟨i, hi⟩ := Pool.lastTurn_of_count ha (Nat.lt_of_lt_of_le Nat.zero_lt_two hcount)
  obtain ⟨j, hj⟩ := Pool.lastTurn_of_count ha hcount
  refine ⟨i, j, hi, hj, ?_⟩
  rw [lastWritten, hi] at hdesc
  rw [lastWritten, hj] at hdisk
  rw [← show _ ↔ (calls i).value.bytes = (calls j).value.bytes from
    describe_same_iff (p := (calls i).memoryPut) (q := (calls j).diskPut) hinj (hputs.chunks i)
      (hputs.chunks j)]
  constructor
  · rintro ⟨desc, desc', v, he, he', hv, hv'⟩
    cases hdesc.symm.trans he
    cases hdisk.symm.trans he'
    exact ⟨v, hv, hv'⟩
  · rintro ⟨v, hv, hv'⟩
    exact ⟨_, _, v, hdesc, hdisk, hv, hv'⟩

/-! ## Two writers -/

/-- Two puts under the key 1: of the value 7, and of the value 7, 8. -/
def twoPuts : Bool → PutCall
  | false => .byte [1] 7
  | true => { PutCall.byte [1] 7 with value := .pair 7 8 }

theorem putsOf_twoPuts : PutsOf ⟨[1]⟩ twoPuts {[7], [7, 8]} where
  key_eq := by decide
  opts_eq := by decide
  clean := by
    intro i
    cases i with
    | false => exact ⟨fun _ => rfl, rfl⟩
    | true => exact ⟨fun _ => rfl, rfl⟩
  chunks := by
    intro i b hb
    cases i with
    | false =>
      have hb' : b ∈ blocks chunkSize [7] := hb
      rw [blocks_byte, List.mem_singleton] at hb'
      exact .inl hb'
    | true =>
      have hb' : b ∈ blocks chunkSize [7, 8] := hb
      rw [blocks_pair, List.mem_singleton] at hb'
      exact .inr hb'

/-- Both puts have returned after a schedule that gives each of them two turns. -/
theorem twoPuts_return {sched : List Bool} (hsched : ∀ i, sched.count i = 2) (i : Bool) :
    ∃ status, ((putPool sampleHash twoPuts (init {}) sched).threads i).prog = .ret status := by
  have h := (written_putPool (H := sampleHash) putsOf_twoPuts (inv_init {}) rfl rfl sched).threads i
  rwa [hsched i] at h

/-- When one put runs after the other, the levels agree. -/
theorem levels_after_puts_in_turn :
    ∃ m d, (putPool sampleHash twoPuts (init {}) [true, true, false, false]).shared.memory =
      some m ∧
      (putPool sampleHash twoPuts (init {}) [true, true, false, false]).shared.disk = some d ∧
      Agree sampleHash ⟨[1]⟩ m d := by
  have hinj : Set.InjOn sampleHash {[7], [7, 8]} := by
    rintro a (rfl | rfl) b (rfl | rfl) hab
    · rfl
    · exact absurd hab (by decide)
    · exact absurd hab (by decide)
    · rfl
  obtain ⟨m, d, hm, hd, -, -, hagree⟩ := levels_after_puts sampleHash hinj ⟨[1]⟩ twoPuts
    putsOf_twoPuts (init {}) (inv_init {}) rfl rfl [true, true, false, false]
  obtain ⟨i, j, hi, hj, hiff⟩ := hagree (twoPuts_return (by decide)) ⟨true, by decide⟩
  cases hi.symm.trans (show _ = some true by decide)
  cases hj.symm.trans (show _ = some true by decide)
  exact ⟨m, d, hm, hd, hiff.2 rfl⟩

/-- When the second put runs between the two writes of the first, the memory level is left with the
value of the second and the disk level with that of the first. -/
theorem levels_disagree :
    PutsOf ⟨[1]⟩ twoPuts {[7], [7, 8]} ∧
    (∀ i, ∃ status, ((putPool sampleHash twoPuts (init {})
      [false, true, true, false]).threads i).prog = .ret status) ∧
    ∃ m d, (putPool sampleHash twoPuts (init {}) [false, true, true, false]).shared.memory =
      some m ∧
      (putPool sampleHash twoPuts (init {}) [false, true, true, false]).shared.disk = some d ∧
      ¬ Agree sampleHash ⟨[1]⟩ m d := by
  have h := written_putPool (H := sampleHash) putsOf_twoPuts (inv_init {}) rfl rfl
    [false, true, true, false]
  obtain ⟨m, hm, hdesc⟩ := h.memory
  obtain ⟨d, hd, hdisk⟩ := h.disk
  refine ⟨putsOf_twoPuts, twoPuts_return (by decide), m, d, hm, hd, ?_⟩
  rintro ⟨desc, desc', v, he, he', hv, hv'⟩
  have hlast : Pool.lastTurn (accepted twoPuts) 0 [false, true, true, false] =
    some true := by decide
  have hlast' : Pool.lastTurn (accepted twoPuts) 1 [false, true, true, false] = some false := by
    decide
  rw [he, lastWritten, hlast] at hdesc
  rw [he', lastWritten, hlast'] at hdisk
  cases hdesc
  cases hdisk
  have hsize : (2 : Nat) = 1 := hv.totalSize.trans hv'.totalSize.symm
  exact absurd hsize (by decide)

end CacheCoordinator

end ElCache
