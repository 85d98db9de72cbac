import Litmus.Proofs.Exploration.Termination
import Litmus.Proofs.Memory.Snapshot
import Litmus.Proofs.Outcome.Thrown
import Litmus.Proofs.Value.Record

/-!
Why an exploration stops before its end. Whatever waits is reached by moves, and in a state that moves reach memory
holds writes of cells alone, so a snapshot of it never fails. Main fact: if the instructions throw nothing but faults,
and choose among as many values as natural widths have, an exploration stops for a budget or for the failure of an
instruction, told with its thread, its place and the program. Two things get past that: a promisable write that is of no
cell, and a choice of more values than can be counted.
-/

namespace Litmus

/-! ### Writes of cells alone -/

theorem Frame.Placed.aligned {f : Frame} {e : Event} {m : Memory} {t : View} {promised : Bool}
    (h : f.Placed e m t promised) (hf : f.memory.Aligned) (he : ∀ loc, e.location? = some loc → loc % 8 = 0) :
    m.Aligned := by
  intro u tid loc value hu
  rcases h.at?_cases u _ hu with hu | ⟨-, -, rfl⟩
  · exact hf u tid loc value hu
  · exact he loc rfl

theorem Effect.Step.aligned {e : Effect} {f g : Frame} {v : e.Answer} {a : Action} (h : e.Step f v g a)
    (hm : f.memory.Whole) (hf : f.memory.Aligned) : g.memory.Aligned := by
  cases h with
  | write _ ha _ _ hp =>
    refine (Frame.placed hm hp).aligned hf ?_
    rintro _ ⟨⟩
    exact ha
  | maintain _ _ hp => exact (Frame.placed hm hp).aligned hf nofun
  | _ => exact hf

theorem Instr.Runs.aligned {i : Instr} {f g : Frame} {as : List Action} (r : i.Runs f as g) (hm : f.memory.Whole)
    (hf : f.memory.Aligned) : g.memory.Aligned := by
  induction r with
  | done => exact hf
  | ask hs _ ih => exact ih ((hs.grows hm).whole hm) (hs.aligned hm hf)

theorem Frame.promiseWrite_aligned {f g : Frame} {loc value : Int} {time : View} (hm : f.memory.Whole)
    (hf : f.memory.Aligned) (h : f.promiseWrite loc value = .ok (g, time)) : g.memory.Aligned := by
  obtain ⟨ha, -, -, -, -, -, hat⟩ := promiseWrite_spec hm h
  intro t tid l v ht
  rw [hat] at ht
  split at ht
  · cases ht
    exact ha
  · exact hf t tid l v ht

theorem Program.Run.aligned {p : Program} {ds : List Deed} {s : State} (r : p.Run ds s) : s.memory.Aligned := by
  induction r with
  | start =>
    intro t tid loc value ht
    have hpos := Memory.pos_of_at? ht
    have hle : t ≤ 0 := Memory.le_length_of_at? ht
    lia
  | move r hd ih =>
    cases hd with
    | run _ _ _ hr => exact hr.aligned r.fits.whole ih
    | promise _ _ _ _ hf => exact Frame.promiseWrite_aligned r.fits.whole ih hf

/-- Of a state that moves reach something is left. -/
theorem Program.Reaches.exists_final {p : Program} {s : State} (h : p.Reaches s) : ∃ f, s.final = .ok f := by
  obtain ⟨ds, r⟩ := Program.reaches_iff.mp h
  obtain ⟨image, himage⟩ := r.aligned.exists_snapshot
  exact ⟨_, by rw [State.final, himage]; rfl⟩

/-! ### What stops a search -/

namespace Search

variable {p : Program} {o : Options} {s : Search} {c : State} {h : Halted}

theorem stop_of_meet (he : s.meet o c = .error h) : h.stop = .budget .jobs o.maxJobs := by
  rw [meet] at he
  split at he
  · cases he
  · dsimp only at he
    split at he
    · cases he
      rfl
    · cases he

/-- A search stops for a budget, or because of a finding. -/
theorem stop_of_take {x : Finding} (he : s.take o x = .error h) :
    (∃ b : Budget, h.stop = .budget b (b.limit o)) ∨ x = .stopped h.stop := by
  cases x with
  | began =>
    rw [take] at he
    dsimp only at he
    split at he
    · cases he
      exact .inl ⟨.steps, rfl⟩
    · cases he
  | reached d => exact .inl ⟨.jobs, stop_of_meet he⟩
  | pruned => cases he
  | promised tid time loc value d => exact .inl ⟨.jobs, stop_of_meet he⟩
  | stopped stop =>
    cases he
    exact .inr rfl

theorem stop_of_foldlM : ∀ {xs : List Finding} {s : Search}, xs.foldlM (take o) s = .error h →
    (∃ b : Budget, h.stop = .budget b (b.limit o)) ∨ .stopped h.stop ∈ xs
  | [], _, he => by cases he
  | x :: xs, s, he => by
    rw [List.foldlM_cons] at he
    cases ht : s.take o x with
    | error h' =>
      rw [ht] at he
      cases he
      exact (stop_of_take ht).imp_right fun hx => List.mem_cons.mpr (.inl hx.symm)
    | ok t =>
      rw [ht] at he
      exact (stop_of_foldlM he).imp_right (List.mem_cons_of_mem x)

/-- Dealing with a state that something is left of stops for a budget, or because of a finding. -/
theorem stop_of_visit (hc : ∃ f, c.final = .ok f) (he : s.visit p o c = .error h) :
    (∃ b : Budget, h.stop = .budget b (b.limit o)) ∨ ∃ tid, .stopped h.stop ∈ c.findings p o tid := by
  rw [visit] at he
  split at he
  · rw [expand_eq] at he
    refine (stop_of_foldlM he).imp_right fun hx => ?_
    obtain ⟨tid, -, hx⟩ := List.mem_flatMap.mp hx
    exact ⟨tid, hx⟩
  · obtain ⟨f, hf⟩ := hc
    rw [close, hf] at he
    split at he <;> cases he

end Search

/-- An exploration that stops, stops for a budget, or because of what it finds in a state that moves reach. -/
theorem Program.exists_stopped {p : Program} {o : Options} {stop : Stop} (h : (explore p o).result = .error stop) :
    (∃ b : Budget, stop = .budget b (b.limit o)) ∨ ∃ c tid, p.Reaches c ∧ .stopped stop ∈ c.findings p o tid := by
  obtain ⟨n, -, hends⟩ := p.ends o
  rw [h] at hends
  cases hends with
  | unbegun hmeet => exact .inl ⟨.jobs, Search.stop_of_meet hmeet⟩
  | halted hmeet hends =>
    obtain ⟨t, ht, hpass⟩ := hends.exists_halting rfl
    obtain ⟨done, hinv⟩ := Program.exists_invariant hmeet ht
    obtain ⟨⟨c, rest⟩, hp, hv⟩ := Option.map_eq_some_iff.mp hpass
    have hreach : p.Reaches c := hinv.reached c (.inr (Frontier.toList_of_pop? hp ▸ List.mem_cons_self ..))
    refine (Search.stop_of_visit hreach.exists_final hv).imp_right ?_
    rintro ⟨tid, hx⟩
    exact ⟨c, tid, hreach, hx⟩

/-! ### Failures -/

/-- Whether a failure tells another one again, as that of an instruction of a thread of the program. -/
structure Failure.Retells (p : Program) (tid pc : Nat) (g f : Failure Diagnostic) : Prop where
  causes_eq : g.causes = f.chain
  reason_eq : g.told.reason = f.told.reason
  message_eq : g.told.message = s!"Thread {tid} instruction {pc}: {f.told.message}"
  context : ∃ context, g.told.context = some context ∧
    Record.get? context "tid" = some (.number (.whole tid)) ∧ Record.get? context "pc" = some (.number (.whole pc)) ∧
    ∀ name, p.name = some name → Record.get? context "program" = some (.text name)

theorem Finding.told_retells (p : Program) (tid pc : Nat) (f : Failure Diagnostic) : (told p tid pc f).Retells p tid pc f where
  causes_eq := rfl
  reason_eq := rfl
  message_eq := rfl
  context := by
    refine ⟨_, rfl, ?_⟩
    simp only [Record.get?_overlay]
    cases p.name with
    | none => simp [Record.get?_cons]
    | some name => simp [Record.get?_cons]

/-! ### Explorations -/

/-- Whether all instructions of a program throw nothing but faults, and choose among as many values as natural widths
have. -/
def Program.Tame (p : Program) : Prop := ∀ t ∈ p.threads, ∀ i ∈ t.code, i.Tame

/-- Why the exploration of a program may stop. -/
inductive Program.Stops (p : Program) (o : Options) : Stop → Prop
  | budget (b : Budget) : Stops p o (.budget b (b.limit o))
  | failed {c : State} {tid : Nat} {t : ThreadProgram} {slot : Slot} {i : Instr} {f g : Failure Diagnostic} :
      p.Reaches c → p.threads[tid]? = some t → c.threads[tid]? = some slot → t.code[slot.pc]? = some i →
      .fail f ∈ (i.runOn slot.thread c.memory).leaves o.maxChooseBits → g.Retells p tid slot.pc f → Stops p o (.failed g)
  | misaligned {t : ThreadProgram} {w : Int × Int} : t ∈ p.threads → w ∈ t.promisable → w.1 % 8 ≠ 0 →
      Stops p o (.trouble (.fault (.misaligned w.1)))
  | uncounted {t : Trouble} : t.IsUncounted o.maxChooseBits → Stops p o (.trouble t)

theorem Frame.promiseWrite_eq_error {f : Frame} {loc value : Int} {fault : Fault} (hm : f.memory.Whole)
    (h : f.promiseWrite loc value = .error fault) : loc % 8 ≠ 0 ∧ fault = .misaligned loc := by
  by_cases ha : loc % 8 = 0
  · obtain ⟨m, hp, -⟩ := Memory.promise_spec hm (.write f.thread.tid loc value)
    simp [promiseWrite, checkLocation_eq_ok.mpr ⟨ha, rfl⟩, hp, bind, Except.bind, pure, Except.pure] at h
  · rw [promiseWrite, checkLocation, if_neg ha] at h
    cases h
    exact ⟨ha, rfl⟩

/-- What stops the search in a state that moves reach. -/
theorem Program.Tame.stops {p : Program} {o : Options} {c : State} {tid : Nat} {stop : Stop} (hp : p.Tame)
    (hc : p.Reaches c) (h : .stopped stop ∈ c.findings p o tid) : p.Stops o stop := by
  rw [State.findings] at h
  split at h
  · next t slot ht hs =>
    rw [State.findingsOf] at h
    split at h
    · cases h
    · next i hi =>
      rcases List.mem_append.mp h with h | h
      · rcases List.mem_cons.mp h with h | h
        · cases h
        · obtain ⟨leaf, hl, hx⟩ := List.mem_map.mp h
          cases leaf with
          | done => cases hx
          | discard => cases hx
          | fail f =>
            cases hx
            exact .failed hc ht hs hi hl (Finding.told_retells p tid slot.pc f)
          | thrown u =>
            cases hx
            have hi := hp t (List.mem_of_getElem? ht) i (List.mem_of_getElem? hi)
            exact .uncounted (hi.run_throws _ u hl)
          | tooWide =>
            cases hx
            exact .budget .chooseBits
      · obtain ⟨w, hw, hx⟩ := List.mem_map.mp h
        rw [Finding.ofPromise] at hx
        split at hx
        · next fault hf =>
          cases hx
          obtain ⟨ds, r⟩ := Program.reaches_iff.mp hc
          obtain ⟨ha, rfl⟩ := Frame.promiseWrite_eq_error r.fits.whole hf
          have hw : w.1 ∈ t.promisable := by
            have := (List.mem_filter.mp hw).1
            exact List.fst_mem_of_mem_zipIdx this
          exact .misaligned (List.mem_of_getElem? ht) hw ha
        · cases hx
  · cases h

/-- An exploration gives a result, or it stops for a budget or for the failure of an instruction, told with the thread,
the place and the program, unless a promisable write is of no cell or the values of a choice are too many to count. -/
theorem explore_result_or_stops {p : Program} (hp : p.Tame) (o : Options) :
    (∃ r, (explore p o).result = .ok r) ∨ ∃ stop, (explore p o).result = .error stop ∧ p.Stops o stop := by
  cases h : (explore p o).result with
  | ok r => exact .inl ⟨r, rfl⟩
  | error stop =>
    refine .inr ⟨stop, rfl, ?_⟩
    rcases Program.exists_stopped h with ⟨b, rfl⟩ | ⟨c, tid, hc, hx⟩
    · exact .budget b
    · exact hp.stops hc hx

theorem Shape.tame_store (src addr : String) (kind : WriteKind) : (Shape.store src addr kind).Tame :=
  .ask trivial fun _ => .ask trivial fun _ => .ask trivial fun _ => .done

/-- A thread stores to this address, and may promise a write of that one. -/
def oneStore (addr promised : Int) : Program where
  name := some "one store"
  threads := [{ code := [Shape.store "X1" "X2" .plain], regs := .ofList [("X1", (1 : Int)), ("X2", addr)],
                promisable := [(promised, 2)] }]

theorem oneStore_tame (addr promised : Int) : (oneStore addr promised).Tame := by
  simp [Program.Tame, oneStore, Shape.tame_store]

/-- The fault that an exploration was stopped by, if it was thrown. -/
def Stop.fault? : Stop → Option Fault
  | .trouble (.fault f) => some f
  | _ => none

/-- Whether an exploration was stopped by a failure. -/
def Stop.isFailed : Stop → Bool
  | .failed _ => true
  | _ => false

/-- A store to an address that is of no cell fails, and the exploration tells so. -/
theorem explore_result_or_stops_oneStore : (oneStore 0x101 0x100).Tame ∧ ∃ c slot f g,
    (explore (oneStore 0x101 0x100) {}).result = .error (.failed g) ∧ (oneStore 0x101 0x100).Reaches c ∧
    c.threads[0]? = some slot ∧ g.Retells (oneStore 0x101 0x100) 0 slot.pc f := by
  have hfailed : (match (explore (oneStore 0x101 0x100) {}).result with
    | .error stop => stop.isFailed
    | .ok _ => false) = true := by decide +kernel
  refine ⟨oneStore_tame _ _, ?_⟩
  rcases explore_result_or_stops (oneStore_tame 0x101 0x100) {} with ⟨r, hr⟩ | ⟨stop, hstop, hends⟩
  · rw [hr] at hfailed
    cases hfailed
  · rw [hstop] at hfailed
    cases hends with
    | @failed c tid t slot i f g hc ht hs hi hl hg =>
      have htid : tid = 0 := Nat.lt_one_iff.mp (List.getElem?_eq_some_iff.mp ht).1
      subst htid
      exact ⟨c, slot, f, g, hstop, hc, hs, hg⟩
    | uncounted ht =>
      obtain ⟨-, rfl⟩ := ht
      cases hfailed
    | _ => cases hfailed

/-- A promisable write of no cell stops the exploration with the fault itself, which is not told as a failure. -/
theorem explore_misaligned_promise : (oneStore 0x108 0x101).Tame ∧
    (explore (oneStore 0x108 0x101) {}).result = .error (.trouble (.fault (.misaligned 0x101))) := by
  have hfault : (match (explore (oneStore 0x108 0x101) {}).result with
    | .error stop => stop.fault?
    | .ok _ => none) = some (.misaligned 0x101) := by decide +kernel
  refine ⟨oneStore_tame _ _, ?_⟩
  cases h : (explore (oneStore 0x108 0x101) {}).result with
  | ok r =>
    rw [h] at hfault
    cases hfault
  | error stop =>
    rw [h] at hfault
    cases stop with
    | trouble t =>
      cases t with
      | fault f =>
        cases hfault
        rfl
      | other => cases hfault
    | _ => cases hfault

end Litmus
