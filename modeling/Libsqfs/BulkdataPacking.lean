import Libsqfs.BulkdataPlan
import Libsqfs.BulkdataStages

/-! How far every chunk has come towards the plan, whatever the order in which
the stages were passed. -/
namespace Libsqfs
namespace Bulkdata

def item (bd : Bulkdata) (c : Nat) : Item := ⟨(bd.chunk c).kind, (bd.chunk c).data⟩

def plan (r : Rule) (first : Nat) (bd : Bulkdata) (c : Nat) : Plan := Plan.upTo r first bd.item c

def Flusher (bd : Bulkdata) (c : Nat) : Prop :=
  (bd.chunk c).kind ≠ .fullBlock ∧ (bd.chunk c).flushPreviousBlock = true

def Freed (bd : Bulkdata) (c : Nat) : Prop :=
  3 ≤ (bd.chunk c).state.value ∧ ∃ d f, d < bd.count ∧ 4 ≤ (bd.chunk d).state.value ∧
    bd.Flusher d ∧ bd.flushed d = .ok f ∧ (bd.chunk c).fragmentBlock = some f

def Outcome (p : Plan) (z : Bytes × Bool) (state : ChunkState) (claimed : Prop) (b : ImageBlock) :
    Prop :=
  b.size = z.1.length ∧ b.compressed = z.2 ∧ (state = .writable → b.data = some z.1) ∧
    (claimed → b.offset = some p.size)

/- Space on the image is claimed for the chunks before `limit`. -/
structure Holds (r : Rule) (first limit : Nat) (bd : Bulkdata) (c : Nat) : Prop where
  whole : 1 ≤ (bd.chunk c).state.value → (bd.chunk c).kind ≠ .closingPiece →
    (bd.chunk c).data.pread.length = (bd.chunk c).data.size
  cached : (bd.chunk c).kind = .fullBlock → 1 ≤ (bd.chunk c).state.value →
    (bd.chunk c).state.value ≤ 3 → (bd.chunk c).cachedData = some (bd.chunk c).data.pread
  kept : (bd.chunk c).kind = .fragmentPiece → 1 ≤ (bd.chunk c).state.value →
    (bd.chunk c).cachedData = some (bd.chunk c).data.pread ∨ bd.Freed c
  flush : (bd.chunk c).kind ≠ .fullBlock → ((bd.chunk c).flushPreviousBlock = true ↔
    3 ≤ (bd.chunk c).state.value ∧ (bd.plan r first c).Flushes r (bd.item c))
  flushed : bd.Flusher c → bd.flushed c = .ok (bd.plan r first c).contents.length
  piece : (bd.chunk c).kind = .fragmentPiece → 3 ≤ (bd.chunk c).state.value →
    (bd.chunk c).fragmentBlock = some ((bd.plan r first c).flushFor r (bd.item c)).room.1 ∧
      (bd.chunk c).offset = some ((bd.plan r first c).flushFor r (bd.item c)).room.2
  stored : 4 ≤ (bd.chunk c).state.value → ∀ t, bd.target c = .ok (some t) →
    ∃ z, (bd.plan r first c).output r (bd.item c) = some z ∧
      Outcome (bd.plan r first c) z (bd.chunk c).state (c < limit) (bd.block c t)

def LastBefore (bd : Bulkdata) (n : Nat) : Option Nat → Prop
  | none => ∀ d, d < n → (bd.chunk d).kind = .fullBlock
  | some p => p < n ∧ (bd.chunk p).kind ≠ .fullBlock ∧
      ∀ d, p < d → d < n → (bd.chunk d).kind = .fullBlock

structure Chained (bd : Bulkdata) : Prop where
  prev : ∀ c, c < bd.count → (bd.chunk c).kind ≠ .fullBlock → LastBefore bd c (bd.chunk c).prevPiece
  last : LastBefore bd bd.count bd.lastPiece
  capped : ∀ c, c < bd.count → (bd.chunk c).kind = .closingPiece → c + 1 = bd.count

def contentAt (p : Plan) (f : Nat) : Bytes := (p.contents[f]?).getD (p.current.getD [])

/- The pieces before e are assigned, and the fragment blocks are what the plan
makes of them. -/
structure Packing (r : Rule) (first : Nat) (bd : Bulkdata) (e : Nat) : Prop where
  bound : e ≤ bd.count
  before : ∀ d, d < e → (bd.chunk d).kind ≠ .fullBlock → 3 ≤ (bd.chunk d).state.value
  after : ∀ d, e ≤ d → d < bd.count → (bd.chunk d).kind ≠ .fullBlock → (bd.chunk d).state.value < 3
  blocks : bd.fragmentBlockCount = (bd.plan r first e).contents.length +
    (bd.plan r first e).current.toList.length
  content : ∀ f, f < bd.fragmentBlockCount →
    ((bd.fragmentBlock f).pieces.map fun p => (bd.chunk p).data.pread).flatten =
      contentAt (bd.plan r first e) f
  sizes : ∀ f, f < bd.fragmentBlockCount →
    (bd.fragmentBlock f).size = (contentAt (bd.plan r first e) f).length
  members : ∀ f, f < bd.fragmentBlockCount → ∀ p, p ∈ (bd.fragmentBlock f).pieces →
    p < e ∧ (bd.chunk p).kind = .fragmentPiece ∧ (bd.chunk p).fragmentBlock = some f

structure Packed (r : Rule) (first limit : Nat) (bd : Bulkdata) : Prop where
  chained : Chained bd
  holds : ∀ c, c < bd.count → Holds r first limit bd c
  packing : ∃ e, Packing r first bd e

section
variable {r : Rule} {first limit : Nat} {bd next : Bulkdata} {c d : Nat}

theorem Frame.item (frame : Frame bd next) : next.item = bd.item := by
  funext d
  simp only [Bulkdata.item, frame.kind, frame.data]

theorem Frame.plan (frame : Frame bd next) : next.plan r first = bd.plan r first := by
  funext n
  simp only [Bulkdata.plan, frame.item]

theorem Frame.lastBefore (frame : Frame bd next) {n : Nat} {x : Option Nat}
    (last : LastBefore bd n x) : LastBefore next n x := by
  cases x <;> simpa only [LastBefore, frame.kind] using last

theorem Frame.chained (frame : Frame bd next) (chained : Chained bd) : Chained next where
  prev c := by
    rw [frame.count, frame.kind, frame.prevPiece]
    exact fun inside kind => frame.lastBefore (chained.prev c inside kind)
  last := by
    rw [frame.count, frame.lastPiece]
    exact frame.lastBefore chained.last
  capped c := by rw [frame.count, frame.kind]; exact chained.capped c

theorem flushedOk {f : Nat} : bd.flushed c = .ok f ↔
    ∃ p, (bd.chunk c).prevPiece = some p ∧ (bd.chunk p).fragmentBlock = some f := by
  unfold flushed
  cases (bd.chunk c).prevPiece with
  | none => simp [deref, bind, Except.bind]
  | some p =>
    cases h : (bd.chunk p).fragmentBlock with
    | none => simp [deref, bind, Except.bind, h]
    | some g => simp [deref, bind, Except.bind, h]

/- A stage that leaves the packing alone: it may change the data and the block of
chunk c, and free pieces of the fragment block it flushes. -/
structure Touch (bd next : Bulkdata) (c : Nat) : Prop where
  frame : Frame bd next
  others : ∀ d, d ≠ c → next.chunk d = {bd.chunk d with cachedData := (next.chunk d).cachedData}
  data : ∀ d, d ≠ c → (next.chunk d).cachedData = (bd.chunk d).cachedData ∨
    (bd.chunk d).kind = .fragmentPiece ∧ next.Freed d
  flush : (next.chunk c).flushPreviousBlock = (bd.chunk c).flushPreviousBlock
  offset : (next.chunk c).offset = (bd.chunk c).offset
  fragment : (next.chunk c).fragmentBlock = (bd.chunk c).fragmentBlock
  rank : (bd.chunk c).state.value ≤ (next.chunk c).state.value
  assigned : (bd.chunk c).kind ≠ .fullBlock →
    (3 ≤ (bd.chunk c).state.value ↔ 3 ≤ (next.chunk c).state.value)
  count : next.fragmentBlockCount = bd.fragmentBlockCount
  packed : ∀ f, (next.fragmentBlock f).pieces = (bd.fragmentBlock f).pieces ∧
    (next.fragmentBlock f).size = (bd.fragmentBlock f).size
  blocks : ∀ f, ¬ (bd.Flusher c ∧ bd.flushed c = .ok f) →
    (next.fragmentBlock f).dst = (bd.fragmentBlock f).dst

theorem Touch.fragments (touch : Touch bd next c) (d : Nat) :
    (next.chunk d).fragmentBlock = (bd.chunk d).fragmentBlock := by
  by_cases own : d = c
  · subst own; exact touch.fragment
  · rw [touch.others d own]

theorem Touch.flushes (touch : Touch bd next c) (d : Nat) :
    (next.chunk d).flushPreviousBlock = (bd.chunk d).flushPreviousBlock := by
  by_cases own : d = c
  · subst own; exact touch.flush
  · rw [touch.others d own]

theorem Touch.ranks (touch : Touch bd next c) (d : Nat) :
    (bd.chunk d).state.value ≤ (next.chunk d).state.value := by
  by_cases own : d = c
  · subst own; exact touch.rank
  · rw [touch.others d own]

theorem Touch.flusher (touch : Touch bd next c) (d : Nat) : next.Flusher d ↔ bd.Flusher d := by
  simp only [Flusher, touch.frame.kind, touch.flushes]

theorem Touch.flushed (touch : Touch bd next c) (d : Nat) : next.flushed d = bd.flushed d := by
  unfold Bulkdata.flushed
  rw [touch.frame.prevPiece]
  simp only [touch.fragments]

theorem Touch.target (touch : Touch bd next c) (d : Nat) : next.target d = bd.target d := by
  unfold Bulkdata.target
  rw [touch.frame.kind, touch.flushes, touch.flushed]

theorem Touch.freed (touch : Touch bd next c) {d : Nat} (freed : bd.Freed d) : next.Freed d := by
  obtain ⟨assigned, e, f, inside, high, flusher, flushed, piece⟩ := freed
  refine ⟨assigned.trans (touch.ranks d), e, f, by rw [touch.frame.count]; exact inside,
    high.trans (touch.ranks e),
    (touch.flusher e).mpr flusher, by rw [touch.flushed]; exact flushed, ?_⟩
  rw [touch.fragments]; exact piece

theorem Holds.flusher (holds : Holds r first limit bd c) (flusher : bd.Flusher c) :
    3 ≤ (bd.chunk c).state.value ∧ (bd.plan r first c).Flushes r (bd.item c) :=
  (holds.flush flusher.1).mp flusher.2

theorem Packed.flusherUnique (packed : Packed r first limit bd) {f : Nat} (insideC : c < bd.count)
    (insideD : d < bd.count) (flusherC : bd.Flusher c) (flusherD : bd.Flusher d)
    (flushedC : bd.flushed c = .ok f) (flushedD : bd.flushed d = .ok f) : c = d := by
  have holdsC := packed.holds c insideC
  have holdsD := packed.holds d insideD
  have first' := (holdsC.flushed flusherC).symm.trans flushedC
  have second := (holdsD.flushed flusherD).symm.trans flushedD
  exact Plan.flushedOnce (holdsC.flusher flusherC).2 (holdsD.flusher flusherD).2
    (Except.ok.inj (first'.trans second.symm))

theorem targetOk {t : Target} (ok : bd.target c = .ok (some t)) :
    (bd.chunk c).kind = .fullBlock ∧ t = .own ∨
      ∃ f, bd.Flusher c ∧ bd.flushed c = .ok f ∧ t = .fragment f := by
  unfold Bulkdata.target at ok
  split at ok
  · cases ok; exact .inl ⟨by assumption, rfl⟩
  · rename_i piece
    split at ok
    · rename_i flush
      cases flushed : bd.flushed c with
      | error e => rw [flushed] at ok; cases ok
      | ok f =>
        rw [flushed] at ok
        cases ok
        exact .inr ⟨f, ⟨piece, flush⟩, rfl, rfl⟩
    · cases ok

theorem Touch.block (touch : Touch bd next c) (packed : Packed r first limit bd) {t : Target}
    (insideC : c < bd.count) (inside : d < bd.count) (other : d ≠ c)
    (ok : bd.target d = .ok (some t)) : next.block d t = bd.block d t := by
  rcases targetOk ok with ⟨_, rfl⟩ | ⟨f, flusher, flushed, rfl⟩
  · simp only [Bulkdata.block]
    rw [touch.others d other]
  · refine touch.blocks f fun ⟨flusherC, flushedC⟩ => other ?_
    exact packed.flusherUnique inside insideC flusher flusherC flushed flushedC

theorem Touch.holds {limit' : Nat} (touch : Touch bd next c) (packed : Packed r first limit bd)
    (insideC : c < bd.count) (inside : d < bd.count) (other : d ≠ c)
    (limits : d < limit' ↔ d < limit) : Holds r first limit' next d := by
  have holds := packed.holds d inside
  have state : (next.chunk d).state = (bd.chunk d).state := by rw [touch.others d other]
  have offset : (next.chunk d).offset = (bd.chunk d).offset := by rw [touch.others d other]
  refine ⟨?_, ?_, ?_, ?_, ?_, ?_, ?_⟩
  · rw [state, touch.frame.kind, touch.frame.data]; exact holds.whole
  · rw [state, touch.frame.kind, touch.frame.data]
    intro full low high
    rcases touch.data d other with same | ⟨piece, _⟩
    · rw [same]; exact holds.cached full low high
    · rw [full] at piece; cases piece
  · rw [state, touch.frame.kind, touch.frame.data]
    intro piece low
    rcases touch.data d other with same | ⟨_, freed⟩
    · rw [same]; exact (holds.kept piece low).imp_right touch.freed
    · exact .inr freed
  · rw [state, touch.frame.kind, touch.flushes, touch.frame.plan, touch.frame.item]
    exact holds.flush
  · rw [touch.flusher, touch.flushed, touch.frame.plan]; exact holds.flushed
  · rw [state, touch.frame.kind, touch.fragments, offset, touch.frame.plan, touch.frame.item]
    exact holds.piece
  · rw [state, touch.frame.plan, touch.frame.item]
    intro high t ok
    rw [touch.target] at ok
    rw [touch.block packed insideC inside other ok, limits]
    exact holds.stored high t ok

theorem Touch.packing (touch : Touch bd next c) {e : Nat} (packing : Packing r first bd e) :
    Packing r first next e := by
  have assigned (d) (piece : (bd.chunk d).kind ≠ .fullBlock) :
      3 ≤ (bd.chunk d).state.value ↔ 3 ≤ (next.chunk d).state.value := by
    by_cases own : d = c
    · subst own; exact touch.assigned piece
    · rw [touch.others d own]
  refine ⟨?_, fun d => ?_, fun d => ?_, ?_, fun f => ?_, fun f => ?_, fun f => ?_⟩
  · rw [touch.frame.count]; exact packing.bound
  · rw [touch.frame.kind]
    exact fun below piece => (assigned d piece).mp (packing.before d below piece)
  · rw [touch.frame.count, touch.frame.kind]
    intro above below piece
    have early := packing.after d above below piece
    have := assigned d piece
    omega
  · rw [touch.count, touch.frame.plan]; exact packing.blocks
  · rw [touch.count, touch.frame.plan, (touch.packed f).1]
    simp only [touch.frame.data]
    exact packing.content f
  · rw [touch.count, touch.frame.plan, (touch.packed f).2]; exact packing.sizes f
  · rw [touch.count, (touch.packed f).1]
    simp only [touch.frame.kind, touch.fragments]
    exact packing.members f

theorem Packed.moved {limit' : Nat} (packed : Packed r first limit bd) (touch : Touch bd next c)
    (inside : c < bd.count) (limits : ∀ d, d ≠ c → (d < limit' ↔ d < limit))
    (own : Holds r first limit' next c) : Packed r first limit' next where
  chained := touch.frame.chained packed.chained
  holds d below := by
    rw [touch.frame.count] at below
    by_cases same : d = c
    · subst same; exact own
    · exact touch.holds packed inside below same (limits d same)
  packing := by
    obtain ⟨e, packing⟩ := packed.packing
    exact ⟨e, touch.packing packing⟩

/- The step lemma for all stages but the assignment of a piece. -/
theorem Packed.touch (packed : Packed r first limit bd) (touch : Touch bd next c)
    (inside : c < bd.count) (own : Holds r first limit next c) : Packed r first limit next :=
  packed.moved touch inside (fun _ _ => Iff.rfl) own

theorem Packed.claimed (packed : Packed r first c bd) (touch : Touch bd next c)
    (inside : c < bd.count) (own : Holds r first (c + 1) next c) : Packed r first (c + 1) next :=
  packed.moved touch inside (fun d other => by omega) own

/-! ### The stages that leave the packing alone -/

theorem touchOwn (frame : Frame bd next) (others : ∀ d, d ≠ c → next.chunk d = bd.chunk d)
    (flush : (next.chunk c).flushPreviousBlock = (bd.chunk c).flushPreviousBlock)
    (offset : (next.chunk c).offset = (bd.chunk c).offset)
    (fragment : (next.chunk c).fragmentBlock = (bd.chunk c).fragmentBlock)
    (rank : (bd.chunk c).state.value ≤ (next.chunk c).state.value)
    (assigned : (bd.chunk c).kind ≠ .fullBlock →
      (3 ≤ (bd.chunk c).state.value ↔ 3 ≤ (next.chunk c).state.value))
    (count : next.fragmentBlockCount = bd.fragmentBlockCount)
    (blocks : next.fragmentBlock = bd.fragmentBlock) : Touch bd next c where
  frame := frame
  others d other := by rw [others d other]
  data d other := .inl (by rw [others d other])
  flush := flush
  offset := offset
  fragment := fragment
  rank := rank
  assigned := assigned
  count := count
  packed f := by rw [blocks]; exact ⟨rfl, rfl⟩
  blocks f _ := by rw [blocks]

theorem Touch.trans {mid : Bulkdata} (one : Touch bd mid c) (two : Touch mid next c) :
    Touch bd next c where
  frame := one.frame.trans two.frame
  others d other := by rw [two.others d other, one.others d other]
  data d other := by
    rcases two.data d other with same | ⟨piece, freed⟩
    · rcases one.data d other with before | ⟨piece, freed⟩
      · exact .inl (same.trans before)
      · exact .inr ⟨piece, two.freed freed⟩
    · exact .inr ⟨(one.frame.kind d).symm.trans piece, freed⟩
  flush := two.flush.trans one.flush
  offset := two.offset.trans one.offset
  fragment := two.fragment.trans one.fragment
  rank := one.rank.trans two.rank
  assigned piece := (one.assigned piece).trans (two.assigned (by rw [one.frame.kind]; exact piece))
  count := two.count.trans one.count
  packed f := ⟨(two.packed f).1.trans (one.packed f).1, (two.packed f).2.trans (one.packed f).2⟩
  blocks f away := by
    have away' : ¬ (mid.Flusher c ∧ mid.flushed c = .ok f) := by
      rw [one.flusher, one.flushed]; exact away
    exact (two.blocks f away').trans (one.blocks f away)

structure Passed (bd next : Bulkdata) (c : Nat) (state : ChunkState) : Prop where
  frame : Frame bd next
  chunk : ∀ d, next.chunk d = if d = c then {bd.chunk c with state := state} else bd.chunk d
  blocks : next.fragmentBlock = bd.fragmentBlock
  count : next.fragmentBlockCount = bd.fragmentBlockCount

theorem Passed.touch {state : ChunkState} (passed : Passed bd next c state)
    (rank : (bd.chunk c).state.value ≤ state.value)
    (assigned : (bd.chunk c).kind ≠ .fullBlock →
      (3 ≤ (bd.chunk c).state.value ↔ 3 ≤ state.value)) : Touch bd next c := by
  have own : next.chunk c = {bd.chunk c with state := state} := by rw [passed.chunk, if_pos rfl]
  exact touchOwn passed.frame (fun d other => by rw [passed.chunk, if_neg other]) (by rw [own])
    (by rw [own]) (by rw [own]) (by rw [own]; exact rank) (by rw [own]; exact assigned)
    passed.count passed.blocks

theorem Touch.own {limit' : Nat} (touch : Touch bd next c) (holds : Holds r first limit bd c)
    (data : (next.chunk c).cachedData = (bd.chunk c).cachedData)
    (low : 1 ≤ (bd.chunk c).state.value ∨ (bd.chunk c).kind = .closingPiece)
    (stored : 4 ≤ (next.chunk c).state.value → ∀ t, bd.target c = .ok (some t) →
      ∃ z, (bd.plan r first c).output r (bd.item c) = some z ∧
        Outcome (bd.plan r first c) z (next.chunk c).state (c < limit') (next.block c t)) :
    Holds r first limit' next c := by
  have rank := touch.rank
  have assigned := touch.assigned
  have started (piece : (bd.chunk c).kind ≠ .closingPiece) : 1 ≤ (bd.chunk c).state.value :=
    low.resolve_right piece
  refine ⟨?_, ?_, ?_, ?_, ?_, ?_, ?_⟩
  · rw [touch.frame.kind, touch.frame.data]
    exact fun _ piece => holds.whole (started piece) piece
  · rw [touch.frame.kind, touch.frame.data, data]
    exact fun full _ high => holds.cached full (started (by rw [full]; simp)) (rank.trans high)
  · rw [touch.frame.kind, touch.frame.data, data]
    exact fun piece _ => (holds.kept piece (started (by rw [piece]; simp))).imp_right touch.freed
  · rw [touch.frame.plan, touch.frame.item, touch.frame.kind, touch.flush]
    intro piece
    rw [holds.flush piece, assigned piece]
  · rw [touch.flusher, touch.flushed, touch.frame.plan]; exact holds.flushed
  · rw [touch.frame.plan, touch.frame.item, touch.frame.kind, touch.fragment, touch.offset]
    exact fun piece high => holds.piece piece ((assigned (by rw [piece]; simp)).mpr high)
  · rw [touch.frame.plan, touch.frame.item, touch.target]
    exact stored

theorem passedState (bd : Bulkdata) (c : Nat) (state : ChunkState) :
    Passed bd (bd.setState c state) c state := by
  refine ⟨frameSetState bd c state, fun d => ?_, rfl, rfl⟩
  simp only [setState, set, Function.update_apply]

theorem Passed.queue {state : ChunkState} {last : Bulkdata} (passed : Passed bd next c state)
    (frame : Frame next last) (chunk : last.chunk = next.chunk)
    (blocks : last.fragmentBlock = next.fragmentBlock)
    (count : last.fragmentBlockCount = next.fragmentBlockCount) : Passed bd last c state :=
  ⟨passed.frame.trans frame, fun d => by rw [chunk]; exact passed.chunk d,
    blocks.trans passed.blocks, count.trans passed.count⟩

theorem Passed.pushFront {state : ChunkState} (passed : Passed bd next c state) (q : Workq)
    (d : Nat) : Passed bd (next.pushFront q d) c state :=
  passed.queue (framePushFront next q d) rfl rfl rfl

theorem Packed.pass {state : ChunkState} (packed : Packed r first limit bd)
    (passed : Passed bd next c state) (inside : c < bd.count)
    (rank : (bd.chunk c).state.value ≤ state.value)
    (assigned : (bd.chunk c).kind ≠ .fullBlock →
      (3 ≤ (bd.chunk c).state.value ↔ 3 ≤ state.value))
    (low : 1 ≤ (bd.chunk c).state.value ∨ (bd.chunk c).kind = .closingPiece)
    (early : state.value ≤ 3) : Packed r first limit next := by
  have touch := passed.touch rank assigned
  have own : next.chunk c = {bd.chunk c with state := state} := by rw [passed.chunk, if_pos rfl]
  refine packed.touch touch inside (touch.own (packed.holds c inside) (by rw [own]) low fun high => ?_)
  rw [own] at high
  exact absurd high (Nat.not_le.mpr (Nat.lt_succ_of_le early))

theorem Packed.closingRead (packed : Packed r first limit bd) (inside : c < bd.count)
    (state : (bd.chunk c).state = .none) (closing : (bd.chunk c).kind = .closingPiece) :
    Packed r first limit (bd.closingPieceRead c) :=
  packed.pass ((passedState bd c .read).pushFront .dedupq c) inside (by rw [state]; decide)
    (fun _ => by rw [state]; decide) (.inr closing) (by decide)

theorem deduplicatePassed (ok : bd.chunkDoDeduplicate c = .ok next) :
    (bd.chunk c).state = .read ∧ Passed bd next c .deduplicated := by
  obtain ⟨_, asserted, last⟩ := bindOk ok
  cases last
  exact ⟨assertOk asserted, (passedState bd c .deduplicated).pushFront .assignq c⟩

theorem pieceDeduplicatePassed (ok : bd.fragmentPieceDeduplicate c = .ok next) :
    (bd.chunk c).state = .read ∧ Passed bd next c .deduplicated := by
  obtain ⟨_, asserted, last⟩ := bindOk ok
  refine ⟨assertOk asserted, ?_⟩
  simp only [pure, Except.pure] at last
  split at last
  · cases last; exact passedState bd c .deduplicated
  · cases last; exact (passedState bd c .deduplicated).pushFront .assignq c

theorem assignPassed (ok : bd.chunkDoAssign c = .ok next) :
    (bd.chunk c).state = .deduplicated ∧ Passed bd next c .assigned := by
  obtain ⟨_, asserted, last⟩ := bindOk ok
  cases last
  exact ⟨assertOk asserted, (passedState bd c .assigned).pushFront .compressq c⟩

theorem Packed.deduplicated (packed : Packed r first limit bd) (inside : c < bd.count)
    (passed : (bd.chunk c).state = .read ∧ Passed bd next c .deduplicated) :
    Packed r first limit next := by
  obtain ⟨state, passed⟩ := passed
  exact packed.pass passed inside (by rw [state]; decide) (fun _ => by rw [state]; decide)
    (.inl (by rw [state]; decide)) (by decide)

theorem Packed.assign (packed : Packed r first limit bd) (inside : c < bd.count)
    (full : (bd.chunk c).kind = .fullBlock) (ok : bd.chunkDoAssign c = .ok next) :
    Packed r first limit next := by
  obtain ⟨state, passed⟩ := assignPassed ok
  exact packed.pass passed inside (by rw [state]; decide) (fun other => absurd full other)
    (.inl (by rw [state]; decide)) (by decide)

theorem readTouch (state : (bd.chunk c).state = .none) : Touch bd (bd.chunkDoReadEnd c) c := by
  have own : (bd.chunkDoReadEnd c).chunk c =
      {bd.chunk c with cachedData := some (bd.chunk c).data.pread, state := .read} := by
    simp [chunkDoReadEnd, Bulkdata.set]
  have frame : Frame bd (bd.chunkDoReadEnd c) :=
    Frame.trans (b := bd.set c {bd.chunk c with
      cachedData := some (bd.chunk c).data.pread, state := .read})
      (frameSet bd c rfl rfl rfl rfl id id) (framePushFront _ _ _)
  exact touchOwn frame (fun d other => by simp [chunkDoReadEnd, Bulkdata.set, other]) (by rw [own])
    (by rw [own]) (by rw [own]) (by rw [own, state]; simp [ChunkState.value])
    (by rw [own, state]; simp [ChunkState.value]) rfl rfl

theorem Packed.read (packed : Packed r first limit bd) (inside : c < bd.count)
    (state : (bd.chunk c).state = .none)
    (whole : (bd.chunk c).data.pread.length = (bd.chunk c).data.size) :
    Packed r first limit (bd.chunkDoReadEnd c) := by
  have own : (bd.chunkDoReadEnd c).chunk c =
      {bd.chunk c with cachedData := some (bd.chunk c).data.pread, state := .read} := by
    simp [chunkDoReadEnd, Bulkdata.set]
  have touch := readTouch state
  have holds := packed.holds c inside
  refine packed.touch touch inside ⟨?_, ?_, ?_, ?_, ?_, ?_, ?_⟩
  · rw [own]; exact fun _ _ => whole
  · rw [own]; exact fun _ _ _ => rfl
  · rw [own]; exact fun _ _ => .inl rfl
  · rw [touch.frame.plan, touch.frame.item, own]
    intro piece
    have unset := holds.flush piece
    rw [state] at unset
    rw [unset]
    exact iff_of_false (fun h => by simp [ChunkState.value] at h) fun h => by simp [ChunkState.value] at h
  · rw [touch.flusher, touch.flushed, touch.frame.plan]; exact holds.flushed
  · rw [own]; exact fun _ high => by simp [ChunkState.value] at high
  · rw [own]; exact fun high => by simp [ChunkState.value] at high

/-! ### Making the image block -/

/- What comes of a block when its buffer was allocated, and when it was not and the
compressor answered 0. -/
def blockMade (compressing : Bool) (compress : Bool → Bytes → Option Bytes) (allocated : Bool) (src : Bytes) :
    Bytes × Bool :=
  if allocated then stored compressing (compress true) src else ([], true)

theorem storeSpec {compressing allocated : Bool} {compress : Bool → Bytes → Option Bytes}
    {before dst : ImageBlock} {src : Bytes}
    (ok : imageBlockStore compressing compress allocated before src = .ok (some dst)) :
    dst.data = some (blockMade compressing compress allocated src).1 ∧
      dst.size = (blockMade compressing compress allocated src).1.length ∧
      dst.compressed = (blockMade compressing compress allocated src).2 := by
  unfold imageBlockStore imageBlockCompress imageBlockUncompressed at ok
  cases compressing <;> simp only [Bool.false_eq_true, if_false, if_true] at ok
  · split at ok
    · cases ok
    · cases allocated <;> cases ok
      exact ⟨rfl, rfl, rfl⟩
  · split at ok
    · cases ok
    · cases allocated with
      | true =>
        unfold blockMade stored
        cases answer : compress true src <;> rw [answer] at ok <;> cases ok <;> exact ⟨rfl, rfl, rfl⟩
      | false =>
        split at ok
        · split at ok
          · rename_i z _ empty
            obtain rfl : z = [] := by simpa using empty
            cases ok
            exact ⟨rfl, rfl, rfl⟩
          · cases ok
        · cases ok

/- The plan and the bulk data store blocks in the same way, where each chunk is
compressed with a buffer or without one as `buffered` tells. -/
structure Matches (r : Rule) (compress : Bool → Bytes → Option Bytes) (buffered : Nat → Bool) (bd : Bulkdata) :
    Prop where
  block : r.block = fun n => blockMade bd.compressBlocks compress (buffered n)
  fragment : r.fragment = fun n => blockMade bd.compressFragments compress (buffered n)

section
variable {compress : Bool → Bytes → Option Bytes} {buffered : Nat → Bool}

theorem Matches.frame (rule : Matches r compress buffered bd) (frame : Frame bd next) :
    Matches r compress buffered next where
  block := by rw [frame.compressBlocks]; exact rule.block
  fragment := by rw [frame.compressFragments]; exact rule.fragment

theorem Matches.grown {kind : ChunkKind} {data : DataPiece} (rule : Matches r compress buffered bd)
    (grown : Grown bd next kind data) : Matches r compress buffered next where
  block := by rw [grown.compressBlocks]; exact rule.block
  fragment := by rw [grown.compressFragments]; exact rule.fragment

end

theorem tryWriteoutFragments (bd : Bulkdata) (c : Nat) :
    (bd.chunkTryWriteout c).fragmentBlock = bd.fragmentBlock ∧
      (bd.chunkTryWriteout c).fragmentBlockCount = bd.fragmentBlockCount := by
  unfold chunkTryWriteout
  split
  · exact ⟨rfl, rfl⟩
  · split <;> exact ⟨rfl, rfl⟩

theorem Packed.fullCompress {compress : Bool → Bytes → Option Bytes} {buffered : Nat → Bool}
    (packed : Packed r first limit bd) (rule : Matches r compress buffered bd) (inside : c < bd.count)
    (unclaimed : limit ≤ c) (full : (bd.chunk c).kind = .fullBlock)
    (state : (bd.chunk c).state = .assigned)
    (ok : bd.fullBlockCompressEnd compress (buffered c) c = .ok (next, true)) :
    Touch bd next c ∧ Packed r first limit next := by
  obtain ⟨src, taken, rest⟩ := bindOk ok
  obtain ⟨result, made, rest⟩ := bindOk rest
  have holds := packed.holds c inside
  have cached := holds.cached full (by rw [state]; decide) (by rw [state]; decide)
  rw [cached] at taken
  cases taken
  cases result with
  | none => cases rest
  | some dst =>
    cases rest
    obtain ⟨data, size, compressed⟩ := storeSpec made
    let chunk : Chunk := {bd.chunk c with dst := dst, cachedData := none, state := .writable}
    have own : ((bd.set c chunk).chunkTryWriteout c).chunk c = chunk := by
      rw [tryWriteoutChunk]
      simp [Bulkdata.set]
    have touch : Touch bd ((bd.set c chunk).chunkTryWriteout c) c := by
      have frame : Frame bd (bd.set c chunk) := frameSet bd c rfl rfl rfl rfl id id
      refine touchOwn (frame.trans (frameTryWriteout _ c)) (fun d other => ?_) (by rw [own])
        (by rw [own]) (by rw [own]) (by rw [own, state]; simp [chunk, ChunkState.value]) (fun other => absurd full other)
        (tryWriteoutFragments _ c).2 (tryWriteoutFragments _ c).1
      rw [tryWriteoutChunk]
      simp [Bulkdata.set, other]
    refine ⟨touch, packed.touch touch inside ⟨?_, ?_, ?_, ?_, ?_, ?_, ?_⟩⟩
    · rw [own]; exact fun _ => holds.whole (by rw [state]; decide)
    · rw [own]; exact fun _ _ high => by simp [chunk, ChunkState.value] at high
    · rw [own]; exact fun piece => by rw [full] at piece; cases piece
    · rw [own]; exact fun piece => absurd full piece
    · exact fun flusher => absurd full ((touch.flusher c).mp flusher).1
    · rw [own]; exact fun piece => by rw [full] at piece; cases piece
    · rw [touch.frame.plan, touch.frame.item, touch.target]
      intro _ t target
      refine ⟨r.block c (bd.chunk c).data.pread, Plan.outputFullAt full, ?_⟩
      rcases targetOk target with ⟨_, rfl⟩ | ⟨_, flusher, _⟩
      · rw [Bulkdata.block, own, rule.block]
        exact ⟨size, compressed, fun _ => data, fun early => absurd early (Nat.not_lt.mpr unclaimed)⟩
      · exact absurd full flusher.1

theorem copyPiecesSpec {pieces : List Nat} {buffer : Bytes}
    (cached : ∀ p, p ∈ pieces → (bd.chunk p).cachedData = some (bd.chunk p).data.pread)
    (ok : bd.copyPieces pieces = .ok buffer) :
    buffer = (pieces.map fun p => (bd.chunk p).data.pread).flatten := by
  induction pieces generalizing buffer with
  | nil => cases ok; rfl
  | cons p rest ih =>
    obtain ⟨bytes, taken, last⟩ := bindOk ok
    obtain ⟨more, copied, last⟩ := bindOk last
    rw [cached p List.mem_cons_self] at taken
    cases taken
    cases last
    rw [ih (fun p' member => cached p' (List.mem_cons_of_mem _ member)) copied]
    rfl

theorem Packed.flushContent (packed : Packed r first limit bd) (inside : c < bd.count)
    (state : (bd.chunk c).state = .assigned) (flusher : bd.Flusher c) {f : Nat}
    (flushed : bd.flushed c = .ok f) :
    f < bd.fragmentBlockCount ∧
    (∃ content, (bd.plan r first c).current = some content ∧
      ((bd.fragmentBlock f).pieces.map fun p => (bd.chunk p).data.pread).flatten = content) ∧
    (∀ p, p ∈ (bd.fragmentBlock f).pieces → 3 ≤ (bd.chunk p).state.value ∧
      (bd.chunk p).kind = .fragmentPiece ∧ (bd.chunk p).fragmentBlock = some f ∧
        (bd.chunk p).cachedData = some (bd.chunk p).data.pread) := by
  obtain ⟨e, packing⟩ := packed.packing
  have holds := packed.holds c inside
  have flushes := (holds.flusher flusher).2
  obtain ⟨content, current⟩ := Plan.flushesCurrent flushes
  have early : c < e := by
    by_contra late
    have := packing.after c (by omega) inside flusher.1
    rw [state] at this
    exact absurd this (by decide)
  have number : (bd.plan r first c).contents.length = f :=
    Except.ok.inj ((holds.flushed flusher).symm.trans flushed)
  have found := Plan.contentsFlushed flushes current early
  change (bd.plan r first e).contents[(bd.plan r first c).contents.length]? = some content at found
  rw [number] at found
  have below : f < bd.fragmentBlockCount := by
    have := (List.getElem?_eq_some_iff.mp found).1
    have := packing.blocks
    omega
  refine ⟨below, ⟨content, current, ?_⟩, fun p member => ?_⟩
  · rw [packing.content f below, contentAt, found]
    rfl
  · obtain ⟨before, piece, mine⟩ := packing.members f below p member
    have insideP : p < bd.count := by have := packing.bound; omega
    have assigned := packing.before p before (by rw [piece]; simp)
    refine ⟨assigned, piece, mine, ?_⟩
    rcases (packed.holds p insideP).kept piece (by omega) with cached | freed
    · exact cached
    · obtain ⟨_, d, g, insideD, high, flusherD, flushedD, block⟩ := freed
      rw [mine] at block
      cases block
      have same := packed.flusherUnique insideD inside flusherD flusher flushedD flushed
      subst same
      rw [state] at high
      exact absurd high (by decide)

theorem Packed.pieceCompress {compress : Bool → Bytes → Option Bytes} {buffered : Nat → Bool}
    (packed : Packed r first limit bd) (rule : Matches r compress buffered bd) (inside : c < bd.count)
    (unclaimed : limit ≤ c) (state : (bd.chunk c).state = .assigned) (flusher : bd.Flusher c)
    (ok : bd.fragmentPieceCompressEnd compress (buffered c) c = .ok (next, true)) :
    Touch bd next c ∧ Packed r first limit next := by
  obtain ⟨f, flushed, rest⟩ := bindOk ok
  obtain ⟨buffer, copied, rest⟩ := bindOk rest
  obtain ⟨result, made, rest⟩ := bindOk rest
  have holds := packed.holds c inside
  obtain ⟨below, ⟨content, current, whole⟩, members⟩ :=
    packed.flushContent inside state flusher flushed
  have same : buffer = content :=
    (copyPiecesSpec (fun p member => (members p member).2.2.2) copied).trans whole
  subst same
  cases result with
  | none => cases rest
  | some dst =>
    cases rest
    obtain ⟨data, size, compressed⟩ := storeSpec made
    let mid := ((bd.freePieces (bd.fragmentBlock f).pieces).setFragmentBlock f
      {bd.fragmentBlock f with dst := dst}).setState c .writable
    have frame : Frame bd (mid.chunkTryWriteout c) :=
      (((frameFreePieces bd _).trans (frameSetFragmentBlock _ f _)).trans
        (frameSetState _ c _)).trans (frameTryWriteout _ c)
    have chunk (d) : (mid.chunkTryWriteout c).chunk d = {bd.chunk d with
        cachedData := if d ∈ (bd.fragmentBlock f).pieces then none else (bd.chunk d).cachedData
        state := if d = c then .writable else (bd.chunk d).state} := by
      rw [tryWriteoutChunk]
      simp only [mid, setState, Bulkdata.set, setFragmentBlock, freePieces, Function.update_apply]
      by_cases own : d = c
      · subst own
        simp only [if_true]
        split <;> rfl
      · simp only [if_neg own]
        split <;> rfl
    have blocks (g) : (mid.chunkTryWriteout c).fragmentBlock g =
        if g = f then {bd.fragmentBlock f with dst := dst} else bd.fragmentBlock g := by
      rw [(tryWriteoutFragments mid c).1]
      simp only [mid, setState, Bulkdata.set, setFragmentBlock, freePieces, Function.update_apply]
    have unflushed (d) : (mid.chunkTryWriteout c).flushed d = bd.flushed d := by
      unfold Bulkdata.flushed
      simp only [chunk]
    have gone (d) (member : d ∈ (bd.fragmentBlock f).pieces) : (mid.chunkTryWriteout c).Freed d := by
      refine ⟨?_, c, f, by rw [frame.count]; exact inside, ?_, ?_, by rw [unflushed]; exact flushed,
        ?_⟩
      · rw [chunk]
        simp only
        split
        · decide
        · exact (members d member).1
      · rw [chunk]
        simp [ChunkState.value]
      · simp only [Flusher, chunk]
        exact flusher
      · rw [chunk]
        exact (members d member).2.2.1
    have kept (d) (piece : (bd.chunk d).kind = .fragmentPiece) :
        ((mid.chunkTryWriteout c).chunk d).cachedData = (bd.chunk d).cachedData ∨
          (mid.chunkTryWriteout c).Freed d := by
      by_cases member : d ∈ (bd.fragmentBlock f).pieces
      · exact .inr (gone d member)
      · rw [chunk]
        exact .inl (if_neg member)
    have touch : Touch bd (mid.chunkTryWriteout c) c := by
      refine ⟨frame, fun d other => ?_, fun d other => ?_, by rw [chunk], by rw [chunk],
        by rw [chunk], ?_, fun _ => ?_, (tryWriteoutFragments mid c).2, fun g => ?_, fun g away => ?_⟩
      · rw [chunk, if_neg other]
      · by_cases member : d ∈ (bd.fragmentBlock f).pieces
        · exact .inr ⟨(members d member).2.1, gone d member⟩
        · rw [chunk]
          exact .inl (if_neg member)
      · rw [chunk, state]
        simp [ChunkState.value]
      · rw [chunk, state]
        simp [ChunkState.value]
      · rw [blocks]
        split
        · rename_i own; subst own; exact ⟨rfl, rfl⟩
        · exact ⟨rfl, rfl⟩
      · rw [blocks, if_neg]
        rintro rfl
        exact away ⟨flusher, flushed⟩
    have own : ((mid.chunkTryWriteout c).chunk c).state = .writable := by rw [chunk, if_pos rfl]
    have high : 3 ≤ (bd.chunk c).state.value := by rw [state]; decide
    refine ⟨touch, packed.touch touch inside ⟨?_, ?_, ?_, ?_, ?_, ?_, ?_⟩⟩
    · rw [frame.kind, frame.data]; exact fun _ => holds.whole (by omega)
    · rw [frame.kind]; exact fun full => absurd full flusher.1
    · rw [frame.kind, frame.data]
      intro piece _
      rcases kept c piece with same | freed
      · rw [same]; exact (holds.kept piece (by omega)).imp_right touch.freed
      · exact .inr freed
    · rw [frame.plan, frame.item, frame.kind, own, touch.flushes]
      intro piece
      rw [holds.flush piece, state]
      simp [ChunkState.value]
    · rw [touch.flusher, touch.flushed, frame.plan]; exact holds.flushed
    · rw [frame.kind, frame.plan, frame.item, touch.fragments, touch.offset]
      exact fun piece _ => holds.piece piece high
    · rw [frame.plan, frame.item, touch.target, own]
      intro _ t target
      refine ⟨r.fragment c buffer, Plan.outputFlushAt (holds.flusher flusher).2 current, ?_⟩
      rcases targetOk target with ⟨full, _⟩ | ⟨g, _, other, rfl⟩
      · exact absurd full flusher.1
      · have number : g = f := Except.ok.inj (other.symm.trans flushed)
        subst number
        rw [Bulkdata.block, blocks, if_pos rfl, rule.fragment]
        exact ⟨size, compressed, fun _ => data, fun early => absurd early (Nat.not_lt.mpr unclaimed)⟩

/-! ### Writing the image block -/

theorem touchSetBlock {t : Target} (target : bd.target c = .ok (some t)) (b : ImageBlock) :
    Touch bd (bd.setBlock c b t) c := by
  have frame := (sameSetBlock bd c b t).frame
  rcases targetOk target with ⟨_, rfl⟩ | ⟨f, flusher, flushed, rfl⟩
  · have own : (bd.setBlock c b .own).chunk c = {bd.chunk c with dst := b} := by
      simp [setBlock, Bulkdata.set]
    exact touchOwn frame (fun d other => by simp [setBlock, Bulkdata.set, other]) (by rw [own])
      (by rw [own]) (by rw [own]) (by rw [own]) (by rw [own]; exact fun _ => Iff.rfl) rfl rfl
  · have blocks (g) : (bd.setBlock c b (.fragment f)).fragmentBlock g =
        if g = f then {bd.fragmentBlock f with dst := b} else bd.fragmentBlock g := by
      simp only [setBlock, setFragmentBlock, Function.update_apply]
    refine ⟨frame, fun _ _ => rfl, fun _ _ => .inl rfl, rfl, rfl, rfl, Nat.le_refl _,
      fun _ => Iff.rfl, rfl, fun g => ?_, fun g away => ?_⟩
    · rw [blocks]
      split
      · rename_i same; subst same; exact ⟨rfl, rfl⟩
      · exact ⟨rfl, rfl⟩
    · rw [blocks, if_neg]
      rintro rfl
      exact away ⟨flusher, flushed⟩

theorem blockSetBlock (bd : Bulkdata) (c : Nat) (b : ImageBlock) (t : Target) :
    (bd.setBlock c b t).block c t = b := by
  cases t <;> simp [setBlock, Bulkdata.set, setFragmentBlock, Bulkdata.block]

theorem cachedSetBlock (bd : Bulkdata) (c : Nat) (b : ImageBlock) (t : Target) :
    ((bd.setBlock c b t).chunk c).cachedData = (bd.chunk c).cachedData := by
  cases t <;> simp [setBlock, Bulkdata.set, setFragmentBlock]

theorem Packed.claim {t : Target} {offset : Nat} (packed : Packed r first c bd)
    (inside : c < bd.count) (state : (bd.chunk c).state = .writable)
    (target : bd.target c = .ok (some t)) (here : offset = (bd.plan r first c).size) :
    Packed r first (c + 1) (bd.setBlock c {bd.block c t with offset := some offset} t) := by
  subst here
  have touch := touchSetBlock target {bd.block c t with offset := some (bd.plan r first c).size}
  have holds := packed.holds c inside
  have same := (sameSetBlock bd c
    {bd.block c t with offset := some (bd.plan r first c).size} t).state c
  refine packed.claimed touch inside (touch.own holds (cachedSetBlock _ _ _ _)
    (.inl (by rw [state]; decide)) fun _ t' target' => ?_)
  rw [target] at target'
  cases target'
  obtain ⟨z, output, size, compressed, data, _⟩ := holds.stored (by rw [state]; decide) t target
  rw [same, blockSetBlock, state]
  exact ⟨z, output, size, compressed, fun _ => data state, fun _ => rfl⟩

theorem finishPassed {all : Bool} (ok : bd.chunkMarkFinished c = .ok (next, all)) :
    Passed bd next c .finished := by
  obtain ⟨_, _, last⟩ := bindOk ok
  cases last
  have passed : Passed bd ((bd.setState c .finished).pushNextWritable c) c .finished := by
    refine (passedState bd c .finished).queue (framePushNextWritable _ c) (pushNextWritableChunk _ c)
      ?_ ?_ <;> unfold pushNextWritable <;> split <;> rfl
  obtain ⟨⟨count, last, more, aborted, blocks, fragments, kind, data, prev, following, flush, placed⟩,
    chunk, shape, number⟩ := passed
  exact ⟨⟨count, last, more, aborted, blocks, fragments, kind, data, prev, following, flush, placed⟩,
    chunk, shape, number⟩

theorem Packed.finishPlain {all : Bool} (packed : Packed r first c bd) (inside : c < bd.count)
    (state : (bd.chunk c).state = .writable) (target : bd.target c = .ok none)
    (ok : bd.chunkMarkFinished c = .ok (next, all)) : Packed r first (c + 1) next := by
  have passed := finishPassed ok
  have own : next.chunk c = {bd.chunk c with state := .finished} := by
    rw [passed.chunk, if_pos rfl]
  have touch := passed.touch (by rw [state]; decide) (fun _ => by rw [state]; decide)
  refine packed.claimed touch inside (touch.own (packed.holds c inside) (by rw [own])
    (.inl (by rw [state]; decide)) fun _ t target' => ?_)
  rw [target] at target'
  cases target'

theorem Packed.finishWritten {all : Bool} {t : Target} (packed : Packed r first limit bd)
    (inside : c < bd.count) (state : (bd.chunk c).state = .writable)
    (target : bd.target c = .ok (some t)) (claimed : c < limit)
    (ok : (bd.setBlock c {bd.block c t with data := none} t).chunkMarkFinished c = .ok (next, all)) :
    Touch bd next c ∧ Packed r first limit next := by
  have passed := finishPassed ok
  have one := touchSetBlock target {bd.block c t with data := none}
  have same := (sameSetBlock bd c {bd.block c t with data := none} t).state c
  have two := passed.touch (by rw [same, state]; decide) (fun _ => by rw [same, state]; decide)
  have own : next.chunk c =
      {(bd.setBlock c {bd.block c t with data := none} t).chunk c with state := .finished} := by
    rw [passed.chunk, if_pos rfl]
  have touch := one.trans two
  have holds := packed.holds c inside
  refine ⟨touch, packed.touch touch inside (touch.own holds (by rw [own]; exact cachedSetBlock _ _ _ _)
    (.inl (by rw [state]; decide)) fun _ t' target' => ?_)⟩
  rw [target] at target'
  cases target'
  obtain ⟨z, output, size, compressed, _, offset⟩ := holds.stored (by rw [state]; decide) t target
  have block : next.block c t = {bd.block c t with data := none} := by
    rw [← blockSetBlock bd c {bd.block c t with data := none} t]
    cases t with
    | own => simp only [Bulkdata.block, own]
    | fragment f => simp only [Bulkdata.block, passed.blocks]
  rw [block, own]
  exact ⟨z, output, size, compressed, fun isOver => (by cases isOver), fun _ => offset claimed⟩

/-! ### Assigning a piece -/

theorem targetSame (kind : (next.chunk d).kind = (bd.chunk d).kind)
    (flush : (next.chunk d).flushPreviousBlock = (bd.chunk d).flushPreviousBlock)
    (flushed : bd.Flusher d → next.flushed d = bd.flushed d) : next.target d = bd.target d := by
  unfold Bulkdata.target
  rw [kind, flush]
  cases shape : (bd.chunk d).kind with
  | fullBlock => rfl
  | fragmentPiece | closingPiece =>
    by_cases flag : (bd.chunk d).flushPreviousBlock = true
    · rw [if_pos flag, if_pos flag, flushed ⟨by rw [shape]; simp, flag⟩]
    · rw [if_neg flag, if_neg flag]

theorem Holds.transfer (holds : Holds r first limit bd d)
    (chunk : ∃ n, next.chunk d = {bd.chunk d with nextPiece := n})
    (plan : next.plan r first d = bd.plan r first d)
    (flushed : bd.Flusher d → next.flushed d = bd.flushed d)
    (freed : bd.Freed d → next.Freed d)
    (blocks : ∀ f, 4 ≤ (bd.chunk d).state.value → bd.Flusher d → bd.flushed d = .ok f →
      next.fragmentBlock f = bd.fragmentBlock f) : Holds r first limit next d := by
  obtain ⟨n, chunk⟩ := chunk
  have item : next.item d = bd.item d := by simp only [Bulkdata.item, chunk]
  have flusher : next.Flusher d ↔ bd.Flusher d := by simp only [Flusher, chunk]
  have target : next.target d = bd.target d :=
    targetSame (by rw [chunk]) (by rw [chunk]) flushed
  refine ⟨by rw [chunk]; exact holds.whole, by rw [chunk]; exact holds.cached, ?_,
    by rw [chunk, plan, item]; exact holds.flush, ?_, by rw [chunk, plan, item]; exact holds.piece, ?_⟩
  · rw [chunk]
    exact fun piece low => (holds.kept piece low).imp_right freed
  · rw [flusher, plan]
    exact fun now => (flushed now).trans (holds.flushed now)
  · rw [chunk, plan, item, target]
    intro high t ok
    have same : next.block d t = bd.block d t := by
      rcases targetOk ok with ⟨_, rfl⟩ | ⟨f, now, number, rfl⟩
      · simp only [Bulkdata.block, chunk]
      · simp only [Bulkdata.block, blocks f high now number]
    rw [same]
    exact holds.stored high t ok

theorem contentAtFlush (r : Rule) (p : Plan) (i : Item) {g : Nat}
    (below : g < (p.flushFor r i).contents.length) :
    contentAt (p.flushFor r i) g = contentAt p g := by
  by_cases flushes : p.Flushes r i
  · obtain ⟨content, current⟩ := Plan.flushesCurrent flushes
    rw [Plan.flushForFlushes flushes current] at below ⊢
    simp only [List.length_append, List.length_singleton] at below
    unfold contentAt
    by_cases early : g < p.contents.length
    · rw [List.getElem?_append_left early, List.getElem?_eq_getElem early]
      rfl
    · have last : g = p.contents.length := by omega
      subst last
      simp [current]
  · rw [Plan.flushForFits flushes]

theorem Packed.ready (packed : Packed r first limit bd) (inside : c < bd.count)
    (state : (bd.chunk c).state = .deduplicated) (piece : (bd.chunk c).kind ≠ .fullBlock)
    (assigned : bd.PrevAssigned c) : Packing r first bd c := by
  obtain ⟨e, packing⟩ := packed.packing
  have last := packed.chained.prev c inside piece
  have early : e ≤ c := by
    by_contra late
    have := packing.before c (by omega) piece
    rw [state] at this
    exact absurd this (by decide)
  have between (d) (low : e ≤ d) (high : d < c) : (bd.chunk d).kind = .fullBlock := by
    cases shape : (bd.chunk c).prevPiece with
    | none =>
      rw [shape] at last
      exact last d high
    | some p =>
      rw [shape] at last
      obtain ⟨before, kind, after⟩ := last
      have done := assigned p shape
      have pEarly : p < e := by
        by_contra late
        have := packing.after p (by omega) (by omega) kind
        have three : ChunkState.assigned.value = 3 := rfl
        omega
      exact after d (by omega) high
  obtain ⟨contents, current⟩ := @Plan.upToFull r first bd.item e c early between
  have same (f) : contentAt (bd.plan r first c) f = contentAt (bd.plan r first e) f := by
    simp only [contentAt, Bulkdata.plan, contents, current]
  refine ⟨by omega, fun d below kind => ?_, fun d above => packing.after d (by omega), ?_,
    fun f below => ?_, fun f below => ?_, fun f below p member => ?_⟩
  · exact packing.before d (by by_contra late; exact kind (between d (by omega) below)) kind
  · simp only [Bulkdata.plan, contents, current]
    exact packing.blocks
  · rw [same]; exact packing.content f below
  · rw [same]; exact packing.sizes f below
  · obtain ⟨before, rest⟩ := packing.members f below p member
    exact ⟨by omega, rest⟩

theorem Packed.previous (packed : Packed r first limit bd) (packing : Packing r first bd c)
    (inside : c < bd.count) (piece : (bd.chunk c).kind ≠ .fullBlock) :
    match (bd.chunk c).prevPiece with
    | none => (bd.plan r first c).contents = [] ∧ (bd.plan r first c).current = none
    | some p => p < c ∧ (bd.chunk p).fragmentBlock = some (bd.plan r first c).contents.length ∧
        ∃ content, (bd.plan r first c).current = some content := by
  have last := packed.chained.prev c inside piece
  cases shape : (bd.chunk c).prevPiece with
  | none =>
    rw [shape] at last
    exact @Plan.upToFull r first bd.item 0 c (by omega) fun d _ high => last d high
  | some p =>
    rw [shape] at last
    obtain ⟨before, kind, after⟩ := last
    have insideP : p < bd.count := by omega
    have fragment : (bd.chunk p).kind = .fragmentPiece := by
      cases own : (bd.chunk p).kind with
      | fullBlock => exact absurd own kind
      | fragmentPiece => rfl
      | closingPiece =>
        have := packed.chained.capped p insideP own
        omega
    obtain ⟨contents, current⟩ := @Plan.upToFull r first bd.item (p + 1) c before
      fun d low high => after d (by omega) high
    have step : (bd.plan r first (p + 1)) =
        ((bd.plan r first p).flushFor r (bd.item p)).add (bd.chunk p).data.pread :=
      Plan.stepPiece fragment
    have placed := ((packed.holds p insideP).piece fragment (packing.before p before kind)).1
    refine ⟨before, ?_, ?_⟩
    · rw [placed]
      simp only [Bulkdata.plan] at step ⊢
      rw [contents, step]
      rfl
    · simp only [Bulkdata.plan] at step ⊢
      rw [current, step]
      exact ⟨_, rfl⟩

/- The step lemma for the assignment of a piece. -/
theorem Packed.settle (packed : Packed r first limit bd) (packing : Packing r first bd c)
    (inside : c < bd.count) (frame : Frame bd next)
    (others : ∀ d, d ≠ c → next.chunk d = bd.chunk d)
    (blocks : ∀ g, g < (bd.plan r first c).contents.length →
      next.fragmentBlock g = bd.fragmentBlock g)
    (piece : (bd.chunk c).kind ≠ .fullBlock) (state : (bd.chunk c).state.value < 3)
    (own : Holds r first limit next c) (settled : Packing r first next (c + 1)) : Packed r first limit next where
  chained := frame.chained packed.chained
  packing := ⟨c + 1, settled⟩
  holds d below := by
    rw [frame.count] at below
    by_cases same : d = c
    · subst same; exact own
    have holds := packed.holds d below
    have before {e} (insideE : e < bd.count) (flusher : bd.Flusher e) : e < c := by
      have assigned := ((packed.holds e insideE).flusher flusher).1
      by_contra late
      have := packing.after e (by omega) insideE flusher.1
      omega
    have flushed {e} (insideE : e < bd.count) (flusher : bd.Flusher e) :
        next.flushed e = bd.flushed e := by
      have early := before insideE flusher
      have last := packed.chained.prev e insideE flusher.1
      unfold Bulkdata.flushed
      rw [frame.prevPiece]
      cases shape : (bd.chunk e).prevPiece with
      | none => rfl
      | some p =>
        rw [shape] at last
        have other : p ≠ c := by
          have := last.1
          omega
        simp only [deref, bind, Except.bind, others p other]
    refine holds.transfer ⟨(bd.chunk d).nextPiece, others d same⟩ (by rw [frame.plan])
      (flushed below) (fun freed => ?_) fun f high flusher number => blocks f ?_
    · obtain ⟨assigned, e, f, insideE, high, flusher, number, block⟩ := freed
      have other : e ≠ c := by
        rintro rfl
        omega
      refine ⟨by rw [others d same]; exact assigned, e, f, by rw [frame.count]; exact insideE,
        by rw [others e other]; exact high, ?_, by rw [flushed insideE flusher]; exact number,
        by rw [others d same]; exact block⟩
      simp only [Flusher, others e other]
      exact flusher
    · obtain ⟨content, current⟩ := Plan.flushesCurrent (holds.flusher flusher).2
      have found := Plan.contentsFlushed (holds.flusher flusher).2 current (before below flusher)
      have same := Except.ok.inj ((holds.flushed flusher).symm.trans number)
      rw [← same]
      exact (List.getElem?_eq_some_iff.mp found).1

theorem pieceAssignedChunk (bd : Bulkdata) (c d : Nat) : (bd.pieceAssigned c).chunk d =
    if d = c then {bd.chunk c with
      state := if (bd.chunk c).flushPreviousBlock then .assigned else .writable}
    else bd.chunk d := by
  unfold pieceAssigned
  split
  · simp only [pushFrontChunk, setState, Bulkdata.set, Function.update_apply]
  · simp only [tryWriteoutChunk, setState, Bulkdata.set, Function.update_apply]

theorem pieceAssignedBlocks (bd : Bulkdata) (c : Nat) :
    (bd.pieceAssigned c).fragmentBlock = bd.fragmentBlock ∧
      (bd.pieceAssigned c).fragmentBlockCount = bd.fragmentBlockCount := by
  unfold pieceAssigned
  split
  · exact ⟨rfl, rfl⟩
  · exact tryWriteoutFragments _ c

theorem pushNextPieceBlocks (bd : Bulkdata) (c : Nat) :
    (bd.pushNextPiece c).fragmentBlock = bd.fragmentBlock ∧
      (bd.pushNextPiece c).fragmentBlockCount = bd.fragmentBlockCount := by
  unfold pushNextPiece
  split
  · exact ⟨rfl, rfl⟩
  · split <;> exact ⟨rfl, rfl⟩

structure Joined (bd next : Bulkdata) (c f : Nat) (old : FragmentBlock) (flush : Bool) : Prop where
  frame : Frame bd next
  others : ∀ d, d ≠ c → next.chunk d = bd.chunk d
  own : next.chunk c = {bd.chunk c with
    fragmentBlock := some f
    offset := some old.size
    flushPreviousBlock := flush
    state := if flush then .assigned else .writable}
  blocks : ∀ g, next.fragmentBlock g = if g = f then {old with
      pieces := old.pieces ++ [c]
      size := old.size + (bd.chunk c).data.size}
    else bd.fragmentBlock g

theorem joinedAdd {mid : Bulkdata} {flush : Bool} (c f : Nat) (frame : Frame bd mid)
    (others : ∀ d, d ≠ c → mid.chunk d = bd.chunk d)
    (own : mid.chunk c = {bd.chunk c with flushPreviousBlock := flush})
    (blocks : ∀ g, g ≠ f → mid.fragmentBlock g = bd.fragmentBlock g) :
    Joined bd (((mid.fragmentBlockAddPiece f c).pieceAssigned c).pushNextPiece c) c f
      (mid.fragmentBlock f) flush ∧
    (((mid.fragmentBlockAddPiece f c).pieceAssigned c).pushNextPiece c).fragmentBlockCount =
      mid.fragmentBlockCount := by
  have added (d) : (mid.fragmentBlockAddPiece f c).chunk d =
      if d = c then {mid.chunk c with fragmentBlock := some f, offset := some (mid.fragmentBlock f).size}
      else mid.chunk d := by
    simp only [fragmentBlockAddPiece, setFragmentBlock, Bulkdata.set, Function.update_apply]
  refine ⟨⟨frame.trans ((sameAddPiece mid f c).frame.trans
    ((framePieceAssigned _ c).trans (framePushNextPiece _ c))), fun d other => ?_, ?_, fun g => ?_⟩, ?_⟩
  · rw [pushNextPieceChunk, pieceAssignedChunk, if_neg other, added, if_neg other, others d other]
  · rw [pushNextPieceChunk, pieceAssignedChunk, if_pos rfl, added, if_pos rfl, own]
  · rw [(pushNextPieceBlocks _ c).1, (pieceAssignedBlocks _ c).1]
    simp only [fragmentBlockAddPiece, setFragmentBlock, Bulkdata.set, Function.update_apply]
    by_cases same : g = f
    · rw [if_pos same, if_pos same, frame.data]
    · rw [if_neg same, if_neg same, blocks g same]
  · rw [(pushNextPieceBlocks _ c).2, (pieceAssignedBlocks _ c).2]
    rfl

theorem Packed.joined {f : Nat} {old : FragmentBlock} {flush : Bool} (packed : Packed r first limit bd)
    (packing : Packing r first bd c) (inside : c < bd.count)
    (piece : (bd.chunk c).kind = .fragmentPiece) (state : (bd.chunk c).state = .deduplicated)
    (join : Joined bd next c f old flush)
    (flushes : flush = true ↔ (bd.plan r first c).Flushes r (bd.item c))
    (number : f = ((bd.plan r first c).flushFor r (bd.item c)).contents.length)
    (count : next.fragmentBlockCount = f + 1) (bound : f ≤ bd.fragmentBlockCount)
    (content : (old.pieces.map fun p => (bd.chunk p).data.pread).flatten =
      ((bd.plan r first c).flushFor r (bd.item c)).current.getD [])
    (size : old.size = (((bd.plan r first c).flushFor r (bd.item c)).current.getD []).length)
    (members : ∀ p, p ∈ old.pieces →
      p < c ∧ (bd.chunk p).kind = .fragmentPiece ∧ (bd.chunk p).fragmentBlock = some f) :
    Packed r first limit next := by
  have frame := join.frame
  have holds := packed.holds c inside
  have notFull : (bd.chunk c).kind ≠ .fullBlock := by rw [piece]; simp
  have early : (bd.chunk c).state.value < 3 := by rw [state]; decide
  have whole := holds.whole (by rw [state]; decide) (by rw [piece]; simp)
  have step : bd.plan r first (c + 1) =
      ((bd.plan r first c).flushFor r (bd.item c)).add (bd.chunk c).data.pread :=
    Plan.stepPiece piece
  have grown : (bd.plan r first c).contents.length ≤ f := by
    rw [number, (Plan.flushForContents _ _ _).1, List.length_append]
    omega
  have high : 3 ≤ (next.chunk c).state.value := by
    rw [join.own]
    cases flush <;> simp [ChunkState.value]
  have open' : contentAt (bd.plan r first (c + 1)) f =
      ((bd.plan r first c).flushFor r (bd.item c)).current.getD [] ++ (bd.chunk c).data.pread := by
    rw [step, number]
    simp [contentAt, Plan.add]
  have closed {g} (below : g < f) :
      contentAt (bd.plan r first (c + 1)) g = contentAt (bd.plan r first c) g := by
    rw [number] at below
    rw [← contentAtFlush r _ _ below, step]
    simp only [contentAt, Plan.add, List.getElem?_eq_getElem below, Option.getD_some]
  have older {g} (below : g < f) : next.fragmentBlock g = bd.fragmentBlock g := by
    rw [join.blocks, if_neg (by omega)]
  have newest : next.fragmentBlock f = {old with
      pieces := old.pieces ++ [c], size := old.size + (bd.chunk c).data.size} := by
    rw [join.blocks, if_pos rfl]
  refine packed.settle packing inside frame join.others (fun g below => older (by omega)) notFull early
    ⟨?_, ?_, ?_, ?_, ?_, ?_, ?_⟩ ⟨?_, ?_, ?_, ?_, ?_, ?_, ?_⟩
  · rw [frame.data]; exact fun _ _ => whole
  · rw [frame.kind]; exact fun full => absurd full notFull
  · rw [join.own]
    intro piece' _
    rcases holds.kept piece' (by rw [state]; decide) with cached | freed
    · exact .inl cached
    · exact absurd freed.1 (by omega)
  · rw [frame.plan, frame.item]
    intro _
    rw [← flushes, join.own]
    exact ⟨fun flag => ⟨by rw [join.own] at high; exact high, flag⟩, fun h => h.2⟩
  · rw [frame.plan]
    intro flusher
    have previous := packed.previous packing inside notFull
    have flag : flush = true := by
      have := flusher.2
      rwa [join.own] at this
    obtain ⟨open'', current⟩ := Plan.flushesCurrent (flushes.mp flag)
    cases shape : (bd.chunk c).prevPiece with
    | none =>
      rw [shape] at previous
      rw [previous.2] at current
      cases current
    | some p =>
      rw [shape] at previous
      refine flushedOk.mpr ⟨p, by rw [frame.prevPiece]; exact shape, ?_⟩
      rw [join.others p (by omega)]
      exact previous.2.1
  · rw [frame.plan, frame.item, join.own]
    exact fun _ _ => ⟨congrArg some number, congrArg some size⟩
  · rw [frame.plan, frame.item]
    intro writable t target
    rcases targetOk target with ⟨full, _⟩ | ⟨_, flusher, _⟩
    · rw [frame.kind] at full
      exact absurd full notFull
    · have flag := flusher.2
      rw [join.own] at flag writable
      simp only at flag
      rw [flag] at writable
      simp [ChunkState.value] at writable
  · rw [frame.count]; omega
  · intro d below kind
    by_cases own : d = c
    · subst own; exact high
    · rw [join.others d own] at kind ⊢
      exact packing.before d (by omega) kind
  · intro d above below kind
    rw [frame.count] at below
    rw [join.others d (by omega)] at kind ⊢
    exact packing.after d (by omega) below kind
  · rw [count, frame.plan, step, number]
    simp [Plan.add]
  · intro g below
    rw [count] at below
    simp only [frame.plan, frame.data]
    by_cases last : g = f
    · subst last
      rw [newest, open', List.map_append, List.flatten_append, content]
      simp
    · rw [older (by omega), closed (by omega)]
      exact packing.content g (by omega)
  · intro g below
    rw [count] at below
    rw [frame.plan]
    by_cases last : g = f
    · subst last
      rw [newest, open', List.length_append, ← size, whole]
    · rw [older (by omega), closed (by omega)]
      exact packing.sizes g (by omega)
  · intro g below p member
    rw [count] at below
    by_cases last : g = f
    · subst last
      rw [newest] at member
      rcases List.mem_append.mp member with before | now
      · obtain ⟨lt, kind, block⟩ := members p before
        rw [join.others p (by omega)]
        exact ⟨by omega, kind, block⟩
      · rw [List.mem_singleton] at now
        subst now
        exact ⟨by omega, by rw [frame.kind]; exact piece, by rw [join.own]⟩
    · rw [older (by omega)] at member
      obtain ⟨lt, kind, block⟩ := packing.members g (by omega) p member
      rw [join.others p (by omega)]
      exact ⟨by omega, kind, block⟩

theorem flushesPiece {p : Plan} {i : Item} {content : Bytes} (piece : i.kind = .fragmentPiece)
    (current : p.current = some content) :
    p.Flushes r i ↔ r.blockSize < content.length + i.data.size := by
  unfold Plan.Flushes
  rw [piece, current]

theorem flushesNone {p : Plan} {i : Item} (current : p.current = none) : ¬ p.Flushes r i := by
  intro flushes
  obtain ⟨content, some'⟩ := Plan.flushesCurrent flushes
  rw [current] at some'
  cases some'

theorem createdBlock {x : Bulkdata} {allocated : Bool} {f : Nat}
    (ok : bd.fragmentBlockCreate allocated = some (f, x)) :
    f = bd.fragmentBlockCount ∧ x.fragmentBlockCount = f + 1 ∧ x.chunk = bd.chunk ∧
      x.fragmentBlock f = ⟨0, [], .init⟩ ∧ ∀ g, g ≠ f → x.fragmentBlock g = bd.fragmentBlock g := by
  unfold fragmentBlockCreate at ok
  split at ok
  · cases ok
    exact ⟨rfl, rfl, rfl, by simp [setFragmentBlock], fun g other => by simp [setFragmentBlock, other]⟩
  · cases ok

/- A piece goes into the last fragment block or into a new one, as in the plan. -/
theorem Packed.assignJoins {blockSize : Nat} {allocated : Bool} (packed : Packed r first limit bd)
    (rule : r.blockSize = blockSize) (inside : c < bd.count)
    (piece : (bd.chunk c).kind = .fragmentPiece) (assigned : bd.PrevAssigned c)
    (ok : bd.fragmentPieceAssign blockSize allocated c = .ok (next, true)) :
    (bd.chunk c).state = .deduplicated ∧ Packing r first bd c ∧ ∃ f old flush,
      Joined bd next c f old flush ∧ next.fragmentBlockCount = f + 1 ∧
      (f = bd.fragmentBlockCount ∧ old = ⟨0, [], .init⟩ ∨
        f + 1 = bd.fragmentBlockCount ∧ old = bd.fragmentBlock f) ∧
      (flush = true ↔ (bd.plan r first c).Flushes r (bd.item c)) ∧
      f = ((bd.plan r first c).flushFor r (bd.item c)).contents.length ∧
      (old.pieces.map fun p => (bd.chunk p).data.pread).flatten =
        ((bd.plan r first c).flushFor r (bd.item c)).current.getD [] ∧
      old.size = (((bd.plan r first c).flushFor r (bd.item c)).current.getD []).length := by
  obtain ⟨_, asserted, rest⟩ := bindOk ok
  have state := assertOk asserted
  obtain ⟨⟨target, mid⟩, chosen, rest⟩ := bindOk rest
  have notFull : (bd.chunk c).kind ≠ .fullBlock := by rw [piece]; simp
  have packing := packed.ready inside state notFull assigned
  have previous := packed.previous packing inside notFull
  have unset : (bd.chunk c).flushPreviousBlock = false := by
    rw [Bool.eq_false_iff]
    intro flag
    have := ((packed.holds c inside).flush notFull).mp flag
    rw [state] at this
    exact absurd this.1 (by decide)
  have kept : bd.chunk c = {bd.chunk c with flushPreviousBlock := false} := by rw [← unset]
  have blocks := packing.blocks
  refine ⟨state, packing, ?_⟩
  unfold previousBlock at chosen
  cases shape : (bd.chunk c).prevPiece with
  | none =>
    rw [shape] at previous chosen
    obtain ⟨contents, current⟩ := previous
    cases chosen
    have stays := @flushesNone r _ (bd.item c) current
    rw [contents, current] at blocks
    simp only at rest
    split at rest
    · cases rest
    · rename_i f x created
      cases rest
      obtain ⟨number, count, chunk, fresh, others⟩ := createdBlock created
      obtain ⟨join, same⟩ := @joinedAdd bd x false c f (sameCreate created).frame (fun d _ => by rw [chunk])
        (by rw [chunk]; exact kept) others
      rw [fresh] at join
      refine ⟨f, _, _, join, same.trans count, .inl ⟨number, rfl⟩, iff_of_false (by simp) stays, ?_, ?_, ?_⟩
      · rw [Plan.flushForFits stays, contents]
        exact number.trans blocks
      · rw [Plan.flushForFits stays, current]; rfl
      · rw [Plan.flushForFits stays, current]; rfl
  | some p =>
    rw [shape] at previous chosen
    obtain ⟨before, block, content, current⟩ := previous
    obtain ⟨f₀, followed, chosen⟩ := bindOk chosen
    rw [block] at followed
    cases followed
    rw [current] at blocks
    have below : (bd.plan r first c).contents.length < bd.fragmentBlockCount := by
      rw [blocks]; simp
    have open' : contentAt (bd.plan r first c) (bd.plan r first c).contents.length = content := by
      simp [contentAt, current]
    have room := packing.sizes _ below
    rw [open'] at room
    split at chosen
    · rename_i full
      cases chosen
      have flushes : (bd.plan r first c).Flushes r (bd.item c) := by
        rw [flushesPiece piece current, rule]
        rw [room] at full
        exact full
      simp only at rest
      split at rest
      · cases rest
      · rename_i f x created
        cases rest
        obtain ⟨number, count, chunk, fresh, others⟩ := createdBlock created
        have frame : Frame bd (bd.set c {bd.chunk c with flushPreviousBlock := true}) :=
          frameSet bd c rfl rfl rfl rfl (fun _ => rfl) id
        obtain ⟨join, same⟩ := joinedAdd c f (frame.trans (sameCreate created).frame)
          (fun d other => by rw [chunk]; simp [Bulkdata.set, other])
          (by rw [chunk]; simp only [Bulkdata.set, Function.update_self]; rfl) others
        rw [fresh] at join
        have counted : bd.fragmentBlockCount = (bd.plan r first c).contents.length + 1 := blocks
        have number' : f = bd.fragmentBlockCount := number
        refine ⟨f, _, _, join, same.trans count, .inl ⟨number', rfl⟩, iff_of_true rfl flushes, ?_, ?_, ?_⟩
        · rw [Plan.flushForFlushes flushes current]
          simp only [List.length_append, List.length_singleton]
          omega
        · rw [Plan.flushForFlushes flushes current]; rfl
        · rw [Plan.flushForFlushes flushes current]; rfl
    · rename_i fits
      cases chosen
      have stays : ¬ (bd.plan r first c).Flushes r (bd.item c) := by
        rw [flushesPiece piece current, rule]
        rw [room] at fits
        exact fits
      cases rest
      obtain ⟨join, same⟩ := @joinedAdd bd bd false c (bd.plan r first c).contents.length (.refl bd)
        (fun _ _ => rfl) kept (fun _ _ => rfl)
      have counted : bd.fragmentBlockCount = (bd.plan r first c).contents.length + 1 := blocks
      refine ⟨_, _, _, join, same.trans counted, .inr ⟨counted.symm, rfl⟩, iff_of_false (by simp) stays,
        ?_, ?_, ?_⟩
      · rw [Plan.flushForFits stays]
      · rw [Plan.flushForFits stays, packing.content _ below, open', current]; rfl
      · rw [Plan.flushForFits stays, room, current]; rfl

theorem Packed.fragmentAssign {blockSize : Nat} {allocated : Bool} (packed : Packed r first limit bd)
    (rule : r.blockSize = blockSize) (inside : c < bd.count)
    (piece : (bd.chunk c).kind = .fragmentPiece) (assigned : bd.PrevAssigned c)
    (ok : bd.fragmentPieceAssign blockSize allocated c = .ok (next, true)) :
    Packed r first limit next := by
  obtain ⟨state, packing, f, old, flush, join, count, place, flushes, number, content, size⟩ :=
    packed.assignJoins rule inside piece assigned ok
  refine packed.joined packing inside piece state join flushes number count (by omega) content size
    fun p member => ?_
  rcases place with ⟨_, rfl⟩ | ⟨last, rfl⟩
  · cases member
  · exact packing.members f (by omega) p member

theorem Packed.closingAssign (packed : Packed r first limit bd) (inside : c < bd.count)
    (closing : (bd.chunk c).kind = .closingPiece) (assigned : bd.PrevAssigned c)
    (ok : bd.closingPieceAssign c = .ok next) : Packed r first limit next := by
  obtain ⟨_, asserted, rest⟩ := bindOk ok
  have state := assertOk asserted
  have notFull : (bd.chunk c).kind ≠ .fullBlock := by rw [closing]; simp
  have packing := packed.ready inside state notFull assigned
  have previous := packed.previous packing inside notFull
  have holds := packed.holds c inside
  have unset : (bd.chunk c).flushPreviousBlock = false := by
    rw [Bool.eq_false_iff]
    intro flag
    have := (holds.flush notFull).mp flag
    rw [state] at this
    exact absurd this.1 (by decide)
  have flushes : (bd.chunk c).prevPiece.isSome = true ↔
      (bd.plan r first c).Flushes r (bd.item c) := by
    cases shape : (bd.chunk c).prevPiece with
    | none =>
      rw [shape] at previous
      exact iff_of_false (by simp) (flushesNone previous.2)
    | some p =>
      rw [shape] at previous
      obtain ⟨_, _, content, current⟩ := previous
      refine iff_of_true rfl ?_
      unfold Plan.Flushes
      rw [current]
      simp only [Bulkdata.item, closing]
  have blocks := packing.blocks
  obtain ⟨mid, shape, frame₀, others₀, own₀, fragments₀, count₀⟩ : ∃ mid : Bulkdata,
      next = mid.pieceAssigned c ∧ Frame bd mid ∧ (∀ d, d ≠ c → mid.chunk d = bd.chunk d) ∧
      mid.chunk c = {bd.chunk c with flushPreviousBlock := (bd.chunk c).prevPiece.isSome} ∧
      mid.fragmentBlock = bd.fragmentBlock ∧ mid.fragmentBlockCount = bd.fragmentBlockCount := by
    have shape := (Except.ok.inj rest).symm
    by_cases follows : (bd.chunk c).prevPiece.isSome = true
    · rw [if_pos follows] at shape
      exact ⟨_, shape, frameSet bd c rfl rfl rfl rfl (fun _ => rfl) id,
        fun d other => by simp [Bulkdata.set, other], by simp [Bulkdata.set, follows], rfl, rfl⟩
    · rw [if_neg follows] at shape
      rw [Bool.not_eq_true] at follows
      exact ⟨bd, shape, .refl bd, fun _ _ => rfl, by rw [follows, ← unset], rfl, rfl⟩
  subst shape
  have frame := frame₀.trans (framePieceAssigned mid c)
  have others (d) (other : d ≠ c) : (mid.pieceAssigned c).chunk d = bd.chunk d := by
    rw [pieceAssignedChunk, if_neg other, others₀ d other]
  have own : (mid.pieceAssigned c).chunk c = {bd.chunk c with
      flushPreviousBlock := (bd.chunk c).prevPiece.isSome
      state := if (bd.chunk c).prevPiece.isSome then .assigned else .writable} := by
    rw [pieceAssignedChunk, if_pos rfl, own₀]
  have fragments : (mid.pieceAssigned c).fragmentBlock = bd.fragmentBlock :=
    (pieceAssignedBlocks mid c).1.trans fragments₀
  have count : (mid.pieceAssigned c).fragmentBlockCount = bd.fragmentBlockCount :=
    (pieceAssignedBlocks mid c).2.trans count₀
  have high : 3 ≤ ((mid.pieceAssigned c).chunk c).state.value := by
    rw [own]
    cases (bd.chunk c).prevPiece.isSome <;> simp [ChunkState.value]
  have step : (bd.plan r first (c + 1)).contents =
        ((bd.plan r first c).flushFor r (bd.item c)).contents ∧
      (bd.plan r first (c + 1)).current = none :=
    ⟨(Plan.stepClosing closing).1, (Plan.stepClosing closing).2.1⟩
  have counted : bd.fragmentBlockCount = (bd.plan r first (c + 1)).contents.length := by
    rw [step.1, (Plan.flushForContents _ _ _).1, blocks, List.length_append]
    by_cases now : (bd.plan r first c).Flushes r (bd.item c)
    · rw [if_pos now]
    · rw [if_neg now]
      cases shape : (bd.chunk c).prevPiece with
      | none =>
        rw [shape] at previous
        rw [previous.2]
        rfl
      | some p => exact absurd (flushes.mp (by rw [shape]; rfl)) now
  have closed {g} (below : g < bd.fragmentBlockCount) :
      contentAt (bd.plan r first (c + 1)) g = contentAt (bd.plan r first c) g := by
    rw [counted] at below
    have below' : g < ((bd.plan r first c).flushFor r (bd.item c)).contents.length := by
      rw [← step.1]; exact below
    rw [← contentAtFlush r _ _ below']
    simp only [contentAt, List.getElem?_eq_getElem below', Option.getD_some, step.1]
  refine packed.settle packing inside frame others (fun g _ => congrFun fragments g) notFull
    (by rw [state]; decide) ⟨?_, ?_, ?_, ?_, ?_, ?_, ?_⟩ ⟨?_, ?_, ?_, ?_, ?_, ?_, ?_⟩
  · rw [frame.kind]; exact fun _ open' => absurd closing open'
  · rw [frame.kind, closing]; exact fun full => by cases full
  · rw [frame.kind, closing]; exact fun piece => by cases piece
  · rw [frame.plan, frame.item, ← flushes, own]
    exact fun _ => ⟨fun flag => ⟨by rw [own] at high; exact high, flag⟩, fun h => h.2⟩
  · rw [frame.plan]
    intro flusher
    have flag := flusher.2
    rw [own] at flag
    simp only at flag
    obtain ⟨p, shape⟩ := Option.isSome_iff_exists.mp flag
    rw [shape] at previous
    refine flushedOk.mpr ⟨p, (frame.prevPiece c).trans shape, ?_⟩
    exact (congrArg Chunk.fragmentBlock (others p (by omega))).trans previous.2.1
  · rw [frame.kind, closing]; exact fun piece => by cases piece
  · intro writable t target
    rcases targetOk target with ⟨full, _⟩ | ⟨_, flusher, _⟩
    · rw [frame.kind] at full
      exact absurd full notFull
    · have flag := flusher.2
      rw [own] at flag writable
      simp only at flag
      rw [flag] at writable
      simp [ChunkState.value] at writable
  · rw [frame.count]; omega
  · intro d below kind
    by_cases same : d = c
    · subst same; exact high
    · rw [others d same] at kind ⊢
      exact packing.before d (by omega) kind
  · intro d above below kind
    rw [frame.count] at below
    rw [others d (by omega)] at kind ⊢
    exact packing.after d (by omega) below kind
  · rw [count, frame.plan, step.2, counted]
    rfl
  · intro g below
    rw [count] at below
    simp only [frame.plan, frame.data, fragments, closed below]
    exact packing.content g below
  · intro g below
    rw [count] at below
    simp only [frame.plan, fragments, closed below]
    exact packing.sizes g below
  · intro g below p member
    rw [count] at below
    rw [fragments] at member
    obtain ⟨lt, kind, block⟩ := packing.members g below p member
    rw [others p (by omega)]
    exact ⟨by omega, kind, block⟩

/-! ### Submitting a chunk -/

theorem Grown.item {kind : ChunkKind} {data : DataPiece} (grown : Grown bd next kind data)
    (below : d < bd.count) : next.item d = bd.item d := by
  simp only [Bulkdata.item, grown.old d below]

theorem Grown.plan {kind : ChunkKind} {data : DataPiece} (grown : Grown bd next kind data) {n : Nat}
    (le : n ≤ bd.count) : next.plan r first n = bd.plan r first n :=
  Plan.upToCongr fun _ below => grown.item (by omega)

theorem Grown.lastBefore {kind : ChunkKind} {data : DataPiece} (grown : Grown bd next kind data)
    {n : Nat} {x : Option Nat} (le : n ≤ bd.count) (last : LastBefore bd n x) :
    LastBefore next n x := by
  have same (d) (below : d < n) : (next.chunk d).kind = (bd.chunk d).kind := by
    rw [grown.old d (by omega)]
  cases x with
  | none => exact fun d below => (same d below).trans (last d below)
  | some p =>
    obtain ⟨before, piece, after⟩ := last
    exact ⟨before, by rw [same p before]; exact piece,
      fun d low high => (same d high).trans (after d low high)⟩

theorem Grown.chained {kind : ChunkKind} {data : DataPiece} (grown : Grown bd next kind data)
    (chained : Chained bd) (open' : ∀ c, c < bd.count → (bd.chunk c).kind ≠ .closingPiece) :
    Chained next := by
  have newKind : (next.chunk bd.count).kind = kind := by rw [grown.new]; rfl
  refine ⟨fun c below piece => ?_, ?_, fun c below closing => ?_⟩
  · rw [grown.count] at below
    by_cases own : c = bd.count
    · subst own
      rw [newKind] at piece
      rw [grown.new]
      simp only [if_neg piece]
      exact grown.lastBefore (Nat.le_refl _) chained.last
    · rw [grown.old c (by omega)] at piece ⊢
      exact grown.lastBefore (by omega) (chained.prev c (by omega) piece)
  · rw [grown.count, grown.lastPiece]
    by_cases full : kind = .fullBlock
    · rw [if_pos full]
      have last := grown.lastBefore (Nat.le_refl _) chained.last
      have extend (d) (above : ¬ d < bd.count) (high : d < bd.count + 1) :
          (next.chunk d).kind = .fullBlock := by
        have same : d = bd.count := by omega
        rw [same, newKind, full]
      cases shape : bd.lastPiece with
      | none =>
        rw [shape] at last
        intro d high
        by_cases old : d < bd.count
        · exact last d old
        · exact extend d old high
      | some p =>
        rw [shape] at last
        obtain ⟨before, piece, after⟩ := last
        refine ⟨by omega, piece, fun d low high => ?_⟩
        by_cases old : d < bd.count
        · exact after d low old
        · exact extend d old high
    · rw [if_neg full]
      exact ⟨by omega, by rw [newKind]; exact full, fun d low high => by omega⟩
  · rw [grown.count] at below ⊢
    by_cases own : c = bd.count
    · omega
    · rw [grown.old c (by omega)] at closing
      exact absurd closing (open' c (by omega))

theorem Packed.grown {kind : ChunkKind} {data : DataPiece} (packed : Packed r first limit bd)
    (grown : Grown bd next kind data)
    (open' : ∀ c, c < bd.count → (bd.chunk c).kind ≠ .closingPiece) : Packed r first limit next := by
  have old (d) (below : d < bd.count) : ∃ n, next.chunk d = {bd.chunk d with nextPiece := n} :=
    ⟨_, grown.old d below⟩
  have flushed (d) (below : d < bd.count) (flusher : bd.Flusher d) :
      next.flushed d = bd.flushed d := by
    have last := packed.chained.prev d below flusher.1
    obtain ⟨n, same⟩ := old d below
    unfold Bulkdata.flushed
    rw [same]
    cases shape : (bd.chunk d).prevPiece with
    | none => rfl
    | some p =>
      rw [shape] at last
      obtain ⟨n', same'⟩ := old p (by have := last.1; omega)
      simp only [deref, bind, Except.bind, same']
  refine ⟨grown.chained packed.chained open', fun c below => ?_, ?_⟩
  · rw [grown.count] at below
    by_cases own : c = bd.count
    · subst own
      have state : (next.chunk bd.count).state = .none := by rw [grown.new]; rfl
      have flush : (next.chunk bd.count).flushPreviousBlock = false := by rw [grown.new]; rfl
      refine ⟨?_, ?_, ?_, ?_, ?_, ?_, ?_⟩ <;> simp [state, flush, Flusher, ChunkState.value]
    · have inside : c < bd.count := by omega
      refine (packed.holds c inside).transfer (old c inside) (grown.plan (by omega))
        (flushed c inside) (fun freed => ?_) fun f _ _ _ => by rw [grown.fragmentBlock]
      obtain ⟨assigned, e, f, insideE, high, flusher, number, block⟩ := freed
      obtain ⟨n, same⟩ := old c inside
      obtain ⟨n', same'⟩ := old e insideE
      refine ⟨by rw [same]; exact assigned, e, f, by rw [grown.count]; omega,
        by rw [same']; exact high, ?_, by rw [flushed e insideE flusher]; exact number,
        by rw [same]; exact block⟩
      simp only [Flusher, same']
      exact flusher
  · obtain ⟨e, packing⟩ := packed.packing
    have bound := packing.bound
    refine ⟨e, by rw [grown.count]; omega, fun d below => ?_, fun d above below => ?_, ?_,
      fun f below => ?_, fun f below => ?_, fun f below p member => ?_⟩
    · rw [grown.old d (by omega)]; exact packing.before d below
    · rw [grown.count] at below
      by_cases own : d = bd.count
      · subst own
        rw [grown.new]
        exact fun _ => by simp [Chunk.create, ChunkState.value]
      · rw [grown.old d (by omega)]; exact packing.after d above (by omega)
    · rw [grown.fragmentBlockCount, grown.plan bound]; exact packing.blocks
    · rw [grown.fragmentBlockCount] at below
      rw [grown.fragmentBlock, grown.plan bound, ← packing.content f below]
      refine congrArg List.flatten (List.map_congr_left fun p member => ?_)
      rw [grown.old p (by have := (packing.members f below p member).1; omega)]
    · rw [grown.fragmentBlockCount] at below
      rw [grown.fragmentBlock, grown.plan bound]; exact packing.sizes f below
    · rw [grown.fragmentBlockCount] at below
      rw [grown.fragmentBlock] at member
      obtain ⟨lt, kind', block⟩ := packing.members f below p member
      rw [grown.old p (by omega)]
      exact ⟨lt, kind', block⟩

theorem Packed.plain (packed : Packed r first limit bd) (workq : Workq → List Nat)
    (mayAddChunks : Bool) :
    Packed r first limit {bd with workq := workq, mayAddChunks := mayAddChunks} where
  chained := ⟨packed.chained.prev, packed.chained.last, packed.chained.capped⟩
  holds c below := by
    obtain ⟨whole, cached, kept, flush, flushed, piece, stored⟩ := packed.holds c below
    exact ⟨whole, cached, kept, flush, flushed, piece, stored⟩
  packing := by
    obtain ⟨e, bound, before, after, blocks, content, sizes, members⟩ := packed.packing
    exact ⟨e, bound, before, after, blocks, content, sizes, members⟩

theorem initPacked (r : Rule) (first : Nat) (compressBlocks compressFragments : Bool) :
    Packed r first limit (init compressBlocks compressFragments) where
  chained := ⟨fun c below => absurd below (Nat.not_lt_zero c), fun d below => absurd below
    (Nat.not_lt_zero d), fun c below => absurd below (Nat.not_lt_zero c)⟩
  holds c below := absurd below (Nat.not_lt_zero c)
  packing := ⟨0, Nat.le_refl 0, fun d below => absurd below (Nat.not_lt_zero d),
    fun d _ below => absurd below (Nat.not_lt_zero d), rfl,
    fun f below => absurd below (Nat.not_lt_zero f), fun f below => absurd below (Nat.not_lt_zero f),
    fun f below => absurd below (Nat.not_lt_zero f)⟩

end

end Bulkdata
end Libsqfs
