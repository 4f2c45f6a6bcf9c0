import MatchingLogic.Proofs.Execution.InPlace

namespace MatchingLogic.Simplification

open MatchingLogic.Frame

section Cut

variable {fs below done : List Frame}

-- The counts of the frames, bottom first, are 1, …, 1, 0.
def Exhausted (fs : List Frame) : Prop :=
  ∃ ones top, fs = ones ++ [top] ∧ (∀ f ∈ ones, f.remaining = 1) ∧ top.remaining = 0

-- Of the frames `fs`, bottom first, `done` are the upper ones that are exhausted, and as many as can be.
structure Cut (fs below done : List Frame) : Prop where
  append : fs = below ++ done
  exhausted : Exhausted done
  longest : ∀ below' done', fs = below' ++ done' → Exhausted done' → done'.length ≤ done.length

theorem Exhausted.remaining_eq_one {f : Frame} (h : Exhausted fs) (hf : f ∈ fs.dropLast) : f.remaining = 1 := by
  obtain ⟨ones, top, rfl, hones, -⟩ := h
  rw [List.dropLast_concat] at hf
  exact hones f hf

theorem Exhausted.cons {f : Frame} (h : Exhausted fs) (hf : f.remaining = 1) : Exhausted (f :: fs) := by
  obtain ⟨ones, top, rfl, hones, htop⟩ := h
  exact ⟨f :: ones, top, rfl, List.forall_mem_cons.mpr ⟨hf, hones⟩, htop⟩

-- The frame below the exhausted ones waits for more or for less than one redex.
theorem cut_iff : Cut fs below done ↔
    fs = below ++ done ∧ Exhausted done ∧ ∀ f ∈ below.getLast?, f.remaining ≠ 1 := by
  constructor
  case mp =>
    refine fun h => ⟨h.append, h.exhausted, fun f hf hone => ?_⟩
    obtain ⟨below, rfl⟩ := List.getLast?_eq_some_iff.mp hf
    have hlength := h.longest below (f :: done) (by simp [h.append]) (h.exhausted.cons hone)
    rw [List.length_cons] at hlength
    omega
  case mpr =>
    rintro ⟨rfl, hdone, hbelow⟩
    refine ⟨rfl, hdone, fun below' done' heq hdone' => ?_⟩
    obtain ⟨more, -, rfl⟩ | ⟨more, rfl, rfl⟩ := List.append_eq_append_iff.mp heq
    · simp
    · obtain rfl | ⟨more, f, rfl⟩ := List.eq_nil_or_concat' more
      · simp
      · have hne : done ≠ [] := by
          obtain ⟨ones, top, rfl, -⟩ := hdone
          simp
        have hf : f ∈ (more ++ [f] ++ done).dropLast := by
          rw [List.dropLast_append_of_ne_nil hne]
          simp
        exact (hbelow f (by simp [← List.append_assoc]) (hdone'.remaining_eq_one hf)).elim

-- With more frames below it, an exhausted part can be cut off after the first that does not wait for one redex.
theorem exists_cut (hdone : Exhausted done) (fs : List Frame) :
    ∃ below' done', Cut (fs.reverse ++ done) below' done' := by
  induction fs generalizing done with
  | nil => exact ⟨[], done, cut_iff.mpr ⟨rfl, hdone, by simp⟩⟩
  | cons f fs ih =>
    rw [List.reverse_cons]
    by_cases hf : f.remaining = 1
    case pos => simpa using ih (hdone.cons hf)
    case neg => exact ⟨_, done, cut_iff.mpr ⟨rfl, hdone, by simpa using hf⟩⟩

end Cut

section Drain

variable {configuration v : Pattern} {top : Frame} {ones below : List Frame} {b : Bool}

-- What a drain leaves when `p` is what it has made of the configuration or of the next frame's result.
def landed (configuration p : Pattern) : List Frame → Except ReplayError Unit × List Frame × Pattern
  | [] => (.ok (), [], p)
  | parent :: below =>
    (if parent.remaining = 0 then .error (.underflow (Location.text parent.location)) else .ok (),
      { parent with result := p, remaining := parent.remaining - 1 } :: below, configuration)

theorem drain_of_pos (h : 0 < top.remaining) :
    drain configuration top below = (.ok (), top :: below, configuration) := by
  cases below <;> simp [drain, Nat.ne_of_gt h]

-- The last round: the frame below does not run out of redexes by it.
theorem Shows.drain_last (hs : Shows ⟨configuration, top :: below, b⟩ v) (htop : top.remaining = 0)
    (hbelow : ∀ f ∈ below.head?, f.remaining ≠ 1) :
    ∃ p, (ground configuration below.reverse).replaceAt? top.location top.result = some p ∧
      Simplification.drain configuration top below = landed configuration p below := by
  obtain ⟨p, hp⟩ := hs.exists_replaceAt?
  refine ⟨p, hp, ?_⟩
  cases below with
  | nil =>
    have hp : configuration.replaceAt? top.location top.result = some p := hp
    simp [Simplification.drain, htop, splice, hp, landed]
  | cons parent below =>
    rw [List.reverse_cons, ground_concat] at hp
    rcases hcount : parent.remaining with _ | _ | n
    · simp [Simplification.drain, htop, splice, hp, landed, hcount]
    · exact (hbelow parent rfl hcount).elim
    · simp [Simplification.drain, htop, splice, hp, landed, hcount, drain_of_pos]

-- As long as a frame waits for the one above it only, it goes with it.
theorem Shows.drain_eq (hs : Shows ⟨configuration, top :: (ones ++ below), b⟩ v) (htop : top.remaining = 0)
    (hones : ∀ f ∈ ones, f.remaining = 1) (hbelow : ∀ f ∈ below.head?, f.remaining ≠ 1) :
    ∃ p, splices (ground configuration below.reverse) (top :: ones).reverse = some p ∧
      Simplification.drain configuration top (ones ++ below) = landed configuration p below := by
  induction ones generalizing top with
  | nil =>
    obtain ⟨p, hp, hdrain⟩ := hs.drain_last htop hbelow
    exact ⟨p, by simpa [splices] using hp, hdrain⟩
  | cons f ones ih =>
    obtain ⟨q, hq⟩ := hs.exists_replaceAt?
    rw [List.cons_append, List.reverse_cons, ground_concat] at hq
    let merged : Frame := { f with result := q, remaining := 0 }
    have hmerged : Shows ⟨configuration, merged :: (ones ++ below), b⟩ v := hs.merge rfl rfl hq
    obtain ⟨p, hp, hdrain⟩ := ih hmerged rfl fun g hg => hones g (by simp [hg])
    refine ⟨p, ?splices, ?drain⟩
    case splices =>
      have hmerge (r : Pattern) : splices r (ones.reverse ++ [f, top]) = splices r (ones.reverse ++ [merged]) :=
        splices_merge rfl hq
      rw [← hp]
      simpa using hmerge _
    case drain =>
      have hcount : f.remaining = 1 := hones f (by simp)
      rw [← hdrain]
      simp [Simplification.drain, htop, splice, hq, hcount, merged]

end Drain

variable {s : Simplification} {v : Pattern} {below done : List Frame}

theorem exit_of_pos (h : ∀ top ∈ s.frames.head?, 0 < top.remaining) :
    s.exit = (.ok (), { s with inScope := false }) := by
  simp only [exit]
  split
  case h_1 => rfl
  case h_2 top below hframes =>
    rw [hframes] at h
    simp [drain_of_pos (h top rfl), hframes]

-- What closing the scope leaves after a drain.
def closed : Except ReplayError Unit × List Frame × Pattern → Except ReplayError Unit × Simplification
  | (answer, frames, configuration) => (answer, { configuration, frames, inScope := false })

theorem Shows.exit_of_cut (hs : s.Shows v) (hcut : Cut s.frames.reverse below done) :
    ∃ p, splices (ground s.configuration below) done = some p ∧
      s.exit = closed (landed s.configuration p below.reverse) := by
  obtain ⟨happend, ⟨ones, top, rfl, hones, htop⟩, hbelow⟩ := cut_iff.mp hcut
  have hframes : s.frames = top :: (ones.reverse ++ below.reverse) := by
    simpa using congrArg List.reverse happend
  have hs : Shows ⟨s.configuration, top :: (ones.reverse ++ below.reverse), s.inScope⟩ v := by rwa [← hframes]
  obtain ⟨p, hp, hdrain⟩ := hs.drain_eq htop (by simpa using hones) (by simpa using hbelow)
  exact ⟨p, by simpa using hp, by simp [Simplification.exit, hframes, hdrain, closed]⟩

theorem Shows.exit_of_splices {p : Pattern} (hs : s.Shows v) (hcut : Cut s.frames.reverse below done)
    (hp : splices (ground s.configuration below) done = some p) :
    s.exit = closed (landed s.configuration p below.reverse) := by
  obtain ⟨q, hq, hexit⟩ := hs.exit_of_cut hcut
  obtain rfl : q = p := Option.some.inj (hq.symm.trans hp)
  exact hexit

-- What closing the scope answers and leaves. The results of the frames that go are in place in each other.
inductive Closes (s : Simplification) : Except ReplayError Unit × Simplification → Prop
  | idle (h : ∀ top ∈ s.frames.head?, 0 < top.remaining) : Closes s (.ok (), { s with inScope := false })
  -- All frames go.
  | empty {done : List Frame} {p : Pattern} (hcut : Cut s.frames.reverse [] done)
      (hp : splices s.configuration done = some p) : Closes s (.ok (), ⟨p, [], false⟩)
  -- The next frame has redexes left.
  | waiting {below done : List Frame} {parent : Frame} {p : Pattern}
      (hcut : Cut s.frames.reverse (below ++ [parent]) done) (hp : splices parent.result done = some p)
      (hcount : 2 ≤ parent.remaining) :
      Closes s (.ok (), {
        configuration := s.configuration
        frames := (below ++ [{ parent with result := p, remaining := parent.remaining - 1 }]).reverse
        inScope := false })
  -- The next frame had none before.
  | underflow {below done : List Frame} {parent : Frame} {p : Pattern}
      (hcut : Cut s.frames.reverse (below ++ [parent]) done) (hp : splices parent.result done = some p)
      (hcount : parent.remaining = 0) :
      Closes s (.error (.underflow (Location.text parent.location)), {
        configuration := s.configuration
        frames := (below ++ [{ parent with result := p }]).reverse
        inScope := false })

theorem Shows.closes (hs : s.Shows v) : s.Closes s.exit := by
  by_cases hpos : ∀ top ∈ s.frames.head?, 0 < top.remaining
  case pos =>
    rw [exit_of_pos hpos]
    exact .idle hpos
  case neg =>
    obtain ⟨top, fs, hframes, htop⟩ : ∃ top fs, s.frames = top :: fs ∧ top.remaining = 0 := by
      cases hframes : s.frames with
      | nil => simp [hframes] at hpos
      | cons top fs => exact ⟨top, fs, rfl, by simpa [hframes] using hpos⟩
    obtain ⟨below, done, hcut⟩ := exists_cut ⟨[], top, rfl, by simp, htop⟩ fs
    rw [List.nil_append, ← List.reverse_cons, ← hframes] at hcut
    obtain ⟨p, hp, hexit⟩ := hs.exit_of_cut hcut
    rw [hexit]
    obtain rfl | ⟨below, parent, rfl⟩ := List.eq_nil_or_concat' below
    · exact .empty hcut hp
    · have hcount : parent.remaining ≠ 1 := (cut_iff.mp hcut).2.2 parent (by simp)
      rw [ground_concat] at hp
      by_cases hzero : parent.remaining = 0
      case pos => simpa [closed, landed, hzero] using Closes.underflow hcut hp hzero
      case neg => simpa [closed, landed, hzero] using Closes.waiting hcut hp (by omega)

-- Nothing else happens in any of the cases.
theorem Shows.exit_eq_of_closes {x : Except ReplayError Unit × Simplification} (hs : s.Shows v)
    (h : s.Closes x) : s.exit = x := by
  cases h with
  | idle h => exact exit_of_pos h
  | empty hcut hp => exact hs.exit_of_splices hcut hp
  | waiting hcut hp hcount =>
    rw [hs.exit_of_splices hcut (by rwa [ground_concat])]
    simp [closed, landed, show _ ≠ 0 from Nat.ne_zero_of_lt hcount]
  | underflow hcut hp hcount =>
    rw [hs.exit_of_splices hcut (by rwa [ground_concat])]
    simp [closed, landed, hcount]

variable {σ : Type} [Semantics σ]

-- Every stack that a run leaves is closed like this.
theorem closes_run (language : σ) (initial : Pattern) (actions : List Action)
    (x : Except ReplayError Unit × Simplification) :
    let s := (run ({ configuration := initial }, language) actions).1
    s.Closes x ↔ s.exit = x := by
  intro s
  have hstart : Shows { configuration := initial } initial := shows_of_frames_nil rfl
  obtain ⟨v, -, hs⟩ := Shows.run (x := (_, language)) hstart actions
  exact ⟨hs.exit_eq_of_closes, fun h => h ▸ hs.closes⟩

end MatchingLogic.Simplification
