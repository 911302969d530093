import Libsqfs.ImageContents
import Libsqfs.PipelineCompletion

/-! Each file is read back from its record, the data area and the table of fragments,
as long as the size of that table has 32 bits. -/
namespace Libsqfs
open Transition Metatable FramedStream

/-! ### Many files without a full block -/

namespace Session
open Image

def tail (data : Bytes) : Item := ⟨.fragmentPiece, ⟨data, data.length, 0⟩⟩

def tailed (data : Bytes) : Nat → Builder
  | 0 => sampleRooted
  | n + 1 => ((tailed data n).run sampleConfig (.regular sampleAttr (some data))).2

def queued (data : Bytes) : Nat → Bulkdata
  | 0 => Bulkdata.init true true
  | n + 1 => (queued data n).submit .fragmentPiece (tail data).data

def queuing (data : Bytes) (n : Nat) : Image := {Image.init true true 96 with root := true, bd := queued data n}

section
variable {data : Bytes}

theorem tailCreated (some : 0 < data.length) (short : data.length < 4096) (t : Inodes) (chunks : Nat) {env : Env}
    (granting : env.Granting) : ∃ after : Env, after.Granting ∧
    Inodes.regularInodeCreate .small 4096 chunks t sampleAttr (.some data) env = (.some t.count, [tail data],
      (t.inodeInit sampleAttr (.regular (Inodes.fileInode .small 4096 data chunks))).2, after) := by
  refine ⟨env.malloc.2.malloc.2.malloc.2, fun n => granting _, ?_⟩
  have granted (n : Nat) : env.mallocs n = true := granting n
  have some : data.length ≠ 0 := by omega
  have none : data ≠ [] := List.ne_nil_of_length_pos (by omega)
  simp [Inodes.regularInodeCreate, Inodes.slicing, short, none, Inodes.submitBlocks, Env.malloc, granted, Inodes.fileInode,
    Inodes.inodeInit, tail]

theorem tailedBuilder (some : 0 < data.length) (short : data.length < 4096) (n : Nat) : (tailed data n).env.Granting ∧
    (tailed data n).items = List.replicate n (tail data) ∧ (tailed data n).inodes.count = n + 1 ∧
    (0 < n → ((tailed data n).inodes.inode 1).body = .regular (Inodes.fileInode .small 4096 data 0)) := by
  induction n with
  | zero => exact ⟨fun _ => rfl, rfl, rfl, fun bad => absurd bad (Nat.lt_irrefl 0)⟩
  | succ n ih =>
    obtain ⟨granting, items, count, body⟩ := ih
    obtain ⟨after, still, made⟩ := tailCreated some short (tailed data n).inodes (tailed data n).items.length granting
    have shape : tailed data (n + 1) = ⟨((tailed data n).inodes.inodeInit sampleAttr
        (.regular (Inodes.fileInode .small 4096 data (tailed data n).items.length))).2,
        (tailed data n).items ++ [tail data], after⟩ := by
      simp only [tailed, Builder.run, sampleConfig, made]
    rw [shape]
    refine ⟨still, by rw [items]; exact List.replicate_succ'.symm, by rw [← count]; rfl, fun _ => ?_⟩
    dsimp only
    rw [Inodes.initInode, count, items, List.length_replicate]
    by_cases first : n = 0
    · subst first
      rfl
    · rw [if_neg (by omega)]
      exact body (by omega)

theorem tailTaken (some : 0 < data.length) (short : data.length < 4096) (n : Nat) :
    (tailed data n).Step sampleConfig (.regular sampleAttr (.some data), true) (tailed data (n + 1)) := by
  obtain ⟨after, _, made⟩ := tailCreated some short (tailed data n).inodes (tailed data n).items.length
    (tailedBuilder some short n).1
  refine ⟨trivial, Prod.ext ?_ rfl⟩
  simp only [Builder.run, sampleConfig, made, Option.isSome_some]

/- What such a run consists of. -/
def Tailing (data : Bytes) (l : (Call × Bool) ⊕ Label) : Prop :=
  l ∈ ([.inl (.directory sampleAttr, true), .inl (.setRoot 0, true), .inl (.regular sampleAttr (some data), true),
    .inr (.submit .fragmentPiece (tail data).data), .inr .enter, .inr .seal, .inr (.thread 0)] :
      List ((Call × Bool) ⊕ Label))

theorem tailsSubmitted (o : ImageConfig) (some : 0 < data.length) (short : data.length < 4096) (n : Nat) : ∃ trace,
    Run (Step o sampleConfig) (init sampleConfig true true 96 .fresh) trace ⟨queuing data n, tailed data n, []⟩ ∧
      (∀ l ∈ labels trace, Tailing data l) ∧ (0 < n → Created trace 1 data) := by
  induction n with
  | zero =>
    obtain ⟨trace, begun, steps⟩ := @sampleBegun o .fresh _ sampleRooted ⟨trivial, rfl⟩ ⟨by decide, rfl⟩ rfl
    refine ⟨trace, begun, fun l member => ?_, fun bad => absurd bad (Nat.lt_irrefl 0)⟩
    rw [steps] at member
    simp only [List.mem_cons, List.not_mem_nil, or_false] at member
    rcases member with rfl | rfl <;> simp [Tailing]
  | succ n ih =>
    obtain ⟨trace, run, each, created⟩ := ih
    have items : (tailed data (n + 1)).items.drop (tailed data n).items.length = [tail data] := by
      rw [(tailedBuilder some short (n + 1)).2.1, (tailedBuilder some short n).2.1, List.replicate_succ', List.drop_left]
    have call : Step o sampleConfig ⟨queuing data n, tailed data n, []⟩ (.inl (.regular sampleAttr (.some data), true))
        ⟨queuing data n, tailed data (n + 1), [tail data]⟩ := by
      have step := @Step.call o sampleConfig ⟨queuing data n, tailed data n, []⟩ _ _ _ ⟨rfl, rfl⟩ rfl (by simp)
        (tailTaken some short n)
      rwa [items] at step
    have submit : Step o sampleConfig ⟨queuing data n, tailed data (n + 1), [tail data]⟩
        (.inr (.submit .fragmentPiece (tail data).data)) ⟨queuing data (n + 1), tailed data (n + 1), []⟩ :=
      .submit (i := tail data) rfl
        ⟨rfl, .submit ⟨rfl, rfl⟩ rfl (by simp [tail]) (.idle fun t => by simp [queuing, Image.init])⟩
    refine ⟨_, (run.move call).move submit, fun l member => ?_, fun _ => ?_⟩
    · simp only [labelsSnoc, List.mem_append, List.mem_singleton] at member
      rcases member with (old | rfl) | rfl
      · exact each l old
      · simp [Tailing]
      · simp [Tailing]
    · by_cases first : n = 0
      · subst first
        exact ⟨_, List.mem_append_left _ (List.mem_append_right _ List.mem_cons_self), sampleAttr, rfl, rfl⟩
      · obtain ⟨e, member, own⟩ := created (by omega)
        exact ⟨e, List.mem_append_left _ (List.mem_append_left _ member), own⟩

theorem queuedAdding (n : Nat) : (queued data n).mayAddChunks = true := by
  induction n with
  | zero => rfl
  | succ n ih =>
    change ((queued data n).enqueuePieceLocked _).mayAddChunks = true
    rw [Bulkdata.enqueuePieceLocked]
    cases (queued data n).lastPiece <;> exact ih

def shut (data : Bytes) (n : Nat) : Image := {queuing data n with bd := (queued data n).sealed, api := .seal true}

theorem tailsSealed (o : ImageConfig) (some : 0 < data.length) (short : data.length < 4096) (n : Nat) : ∃ trace,
    Run (Step o sampleConfig) (init sampleConfig true true 96 .fresh) trace
        ⟨shut data n, record (tailed data n) .seal, []⟩ ∧
      (∀ l ∈ labels trace, Tailing data l) ∧ (0 < n → Created trace 1 data) := by
  obtain ⟨trace, run, each, created⟩ := tailsSubmitted o some short n
  have quiet : Signal (queuing data n).pc (queuing data n).pc := .idle fun t => by simp [queuing, Image.init]
  have entered := onward run (.enter ⟨rfl, rfl⟩ rfl) ⟨rfl, rfl, by simp⟩
  have needed := onward (onward entered (.rootFound rfl rfl) ⟨rfl, rfl, by simp⟩) (.sealNeeded rfl rfl (queuedAdding n))
    ⟨rfl, rfl, by simp⟩
  refine ⟨_, onward needed (.closingQueued rfl rfl quiet quiet) ⟨rfl, rfl, by simp⟩, fun l member => ?_, fun some => ?_⟩
  · simp only [labelsSnoc, List.mem_append, List.mem_singleton] at member
    rcases member with (((old | rfl) | rfl) | rfl) | rfl
    · exact each l old
    all_goals simp [Tailing]
  · obtain ⟨e, member, own⟩ := created some
    exact ⟨e, by simp [member], own⟩

theorem rootKept {o : ImageConfig} {s next : Image} {l : Label} (move : Move o s l next) (found : s.root = true) :
    next.root = true := by
  cases move <;> first | exact found | rfl

theorem workedRooted {o : ImageConfig} {config : BuilderConfig} {b : Builder} {i next : Image}
    {events : List (Event Image Label)} (run : Run (Image.Step o) i events next) (found : i.root = true)
    (others : ∀ e ∈ events, ∀ kind data, e.label ≠ .submit kind data) : ∃ trace,
      Run (Step o config) ⟨i, b, []⟩ trace ⟨next, (labels events).foldl record b, []⟩ ∧
        labels trace = (labels events).map .inr := by
  refine worked run fun e member => ⟨others e member, ?_⟩
  obtain ⟨earlier, _, _, reached, step⟩ := run.reaches member
  have any : Obeys (fun (_ : Image) (_ : Label) => True) earlier := fun _ _ => trivial
  have before : e.before.root = true :=
    Run.invariant (I := fun s => s.root = true) found (fun _ _ _ found _ taken => rootKept taken.2 found) reached any
  rw [before, rootKept step.2 before]

section
variable {l : (Call × Bool) ⊕ Label} {i : Label}

theorem Tailing.calm (tailing : Tailing data l) : Calm l := by
  simp only [Tailing, List.mem_cons, List.not_mem_nil, or_false] at tailing
  rcases tailing with rfl | rfl | rfl | rfl | rfl | rfl | rfl <;> simp [Calm, imageLabel, Image.Calm]

theorem Tailing.image (tailing : Tailing data l) (own : imageLabel l = some i) :
    i ∈ [.thread 0, .submit .fragmentPiece (tail data).data, .enter, .seal] := by
  simp only [Tailing, List.mem_cons, List.not_mem_nil, or_false] at tailing
  rcases tailing with rfl | rfl | rfl | rfl | rfl | rfl | rfl <;> simp_all [imageLabel]

end

theorem tailsFinished {o : ImageConfig} (later : o.later ≠ []) (never : ∀ src, o.compress false src ≠ .some [])
    (some : 0 < data.length) (short : data.length < 4096) (n : Nat) : ∃ trace last,
    Run (Step o sampleConfig) (init sampleConfig true true 96 .fresh) trace ⟨last, record (tailed data n) .seal, []⟩ ∧
      (∀ l ∈ labels trace, Tailing data l) ∧ (0 < n → Created trace 1 data) ∧ last.bd.mayAddChunks = false ∧
      last.bd.finished = last.bd.count := by
  obtain ⟨trace, run, each, created⟩ := tailsSealed o some short n
  obtain ⟨events, _, _, apart⟩ := apartRun later run fun l member => (each l member).calm
  have own (l : Label) (member : l ∈ labels events) :
      l ∈ [.thread 0, .submit .fragmentPiece (tail data).data, .enter, .seal] := by
    rw [apart.imageLabels] at member
    obtain ⟨l', inside, same⟩ := List.mem_filterMap.mp member
    exact (each l' inside).image same
  have within : Obeys (Within 1) events := fun e member => by
    refine ⟨apart.begun.clean e member, fun t same => ?_⟩
    have own := own e.label (List.mem_map_of_mem member)
    rw [same] at own
    simp at own
    omega
  have given (kind : ChunkKind) (piece : DataPiece) (member : .submit kind piece ∈ labels events) : Given piece := by
    have own := own _ member
    simp only [List.mem_cons, Label.submit.injEq, List.not_mem_nil, or_false, reduceCtorEq, false_or] at own
    rw [own.2]
    exact ⟨by simp only [tail]; omega, Bytes.sliceLength (by simp [tail])⟩
  obtain ⟨onward, last, finishing, taken, _, closed, done⟩ := finishable apart.image Nat.one_pos within
    (apart.buffered (bufferedUnlessNothing never run)) given rfl rfl fun t c => by simp [shut, queuing, Image.init]
  have alone (e : Event Image Label) (member : e ∈ onward) : e.label = .thread 0 := by
    obtain ⟨⟨t, below, same⟩, _⟩ := taken e member
    rw [same, Nat.lt_one_iff.mp below]
  obtain ⟨more, worked, same⟩ := @workedRooted o sampleConfig (record (tailed data n) .seal) _ _ _ finishing rfl
    fun e member kind piece bad => by simp [alone e member] at bad
  have still : (labels onward).foldl record (record (tailed data n) .seal) = record (tailed data n) .seal :=
    recordUnsealed _ fun sealing => by
      obtain ⟨e, member, label⟩ := List.mem_map.mp sealing
      rw [alone e member] at label
      cases label
  rw [still] at worked
  refine ⟨_, last, run.append worked, fun l member => ?_, fun some => ?_, closed, done⟩
  · rw [labels, List.map_append, ← labels, ← labels] at member
    rcases List.mem_append.mp member with old | new
    · exact each l old
    · rw [same] at new
      obtain ⟨i, listed, rfl⟩ := List.mem_map.mp new
      obtain ⟨e, taken, rfl⟩ := List.mem_map.mp listed
      rw [alone e taken]
      simp [Tailing]
  · obtain ⟨e, member, own⟩ := created some
    exact ⟨e, List.mem_append_left _ member, own⟩

end
end Session

namespace Assembly

/- Every chunk is finished, no error was flagged, and the table of fragments was written
behind the data, which other tables may follow. -/
structure Tabled (decompress : Bytes → Option Bytes) (o : FinalizeConfig) (image next : Assembly) (env after start : Env)
    (first : Nat) (trace : List (Event Session ((Call × Bool) ⊕ Label))) (s : Session) : Prop where
  run : Run (Session.Step image.threadConfig image.builderConfig)
    (.init image.builderConfig image.options.dataCompression image.options.fragmentCompression first start) trace s
  calm : ∀ l ∈ labels trace, Session.Calm l
  closed : s.image.bd.mayAddChunks = false
  done : s.image.bd.finished = s.image.bd.count
  bulkdata : image.bulkdata = s.image.bd
  valid : 0 < image.options.blockSize ∧ image.options.blockSize ≤ 2 ^ 20
  reverses : Reverses (image.compressor.compress true) decompress image.options.blockSize
  never : ∀ src, image.compressor.compress false src ≠ some []
  inverse : Inverse (some image.compressor) decompress
  fits : s.image.size < 2 ^ 63
  kept : ∀ start count, first ≤ start → start + count ≤ s.image.size →
    Medium.read env.written start count = Medium.read s.image.written start count
  behind : s.image.size ≤ env.size
  written : image.Performs o env .fragmentTable (true, next, after)

section
variable {decompress : Bytes → Option Bytes} {o : FinalizeConfig} {image next : Assembly} {env after start : Env}
  {trace : List (Event Session ((Call × Bool) ⊕ Label))} {s : Session} {i first : Nat} {data : Bytes}

/- One entry more, and the size of the table would need a bit 32. -/
def fragmentLimit : Nat := 524160 * 512 + 15

theorem fewEntriesSmall (inverse : Inverse (some image.compressor) decompress)
    (few : image.bulkdata.fragmentBlockCount ≤ fragmentLimit) (host : Bytes.Host)
    (ok : ((init (some image.compressor)).append (fragmentEntries host image.bulkdata).flatten env).1 = true) :
    ((init (some image.compressor)).append (fragmentEntries host image.bulkdata).flatten env).2.1.flush.encodedSize < 2 ^ 32 := by
  obtain ⟨taken, _, holds, _, whole, _⟩ := appendSpec (fragmentEntries host image.bulkdata).flatten env (initHolds inverse)
  rw [whole ok, List.nil_append] at holds
  have closed := flushClosed holds
  have bound := encodedSizeLe closed
  have count := closed.cut.count
  have length : (fragmentEntries host image.bulkdata).flatten.length = image.bulkdata.fragmentBlockCount * 16 := by
    rw [Bytes.flattenLength (fragmentEntriesSized host image.bulkdata)]
    simp [fragmentEntries]
  rw [closed.stream, length, metadataSize] at count
  rw [length, count] at bound
  unfold fragmentLimit at few
  omega

/- What the record of a file tells, and where the file stands in the plan of the image. -/
theorem Tabled.record (tabled : Tabled decompress o image next env after start first trace s)
    (numbered : s.image.bd.fragmentBlockCount < 2 ^ 32) (created : Session.Created trace i data)
    (length : data.length < 2 ^ 63) (rest : Bytes) : ∃ (item : Nat → Item) (n place : Nat) (inode : InodeRecord),
      s.image.Realizes (Plan.upTo (image.threadConfig.rule (fun _ => true) image.options.dataCompression
        image.options.fragmentCompression) first item n) ∧
      (Plan.upTo (image.threadConfig.rule (fun _ => true) image.options.dataCompression
        image.options.fragmentCompression) first item n).current = none ∧
      (∀ c, c < n → (item c).kind = .fragmentPiece → (item c).data.size ≤ image.options.blockSize) ∧
      Inodes.Stands image.options.fragments image.options.blockSize data item n place ∧
      (s.builder.inodes.inode i).body =
        .regular (Inodes.fileInode image.options.fragments image.options.blockSize data place) ∧
      readInode image.options.blockSize (s.builder.inodes.front (serializeConfig o s.image.bd)
        (s.builder.inodes.inode i) ++ rest) = some (inode, rest) ∧
      inode.data = s.builder.inodes.bodyData (serializeConfig o s.image.bd)
        (.regular (Inodes.fileInode image.options.fragments image.options.blockSize data place)) := by
  have later : image.threadConfig.later ≠ [] := by simp [threadConfig, operations]
  have valid := tabled.valid
  obtain ⟨_, item, n, place, whole, realizes, complete, bounded, stands, body⟩ :=
    Session.runFile later tabled.run tabled.calm tabled.closed tabled.done valid.1 created
  obtain rfl := whole (Session.bufferedUnlessNothing tabled.never tabled.run)
  have sliced : (Inodes.fileInode image.options.fragments image.options.blockSize data place).Sliced
      (serializeConfig o s.image.bd) image.options.fragments image.options.blockSize :=
    realizes.sliced (savesRule tabled.reverses _ _ _) complete valid.1 (show image.options.blockSize < 2 ^ 24 by omega)
      tabled.fits numbered bounded length stands
  obtain ⟨inode, read, contents⟩ := regularContents (x := s.builder.inodes.inode i) s.builder.inodes valid.1 sliced rest
  have front : s.builder.inodes.front (serializeConfig o s.image.bd) (s.builder.inodes.inode i) ++ rest = regularHeader
      (serializeConfig o s.image.bd) (s.builder.inodes.inode i) (Inodes.fileInode image.options.fragments
        image.options.blockSize data place) ++ (blockList (serializeConfig o s.image.bd)
          (Inodes.fileInode image.options.fragments image.options.blockSize data place) ++ rest) := by
    have own : (s.builder.inodes.inode i).body =
        .regular (Inodes.fileInode image.options.fragments image.options.blockSize data place) := body
    simp only [Inodes.front, own, List.append_assoc]
  exact ⟨item, n, place, inode, realizes, complete, bounded, stands, body, by rw [front, read], contents⟩

theorem Tabled.small (tabled : Tabled decompress o image next env after start first trace s)
    (few : s.image.bd.fragmentBlockCount ≤ fragmentLimit) : image.Small o env .fragmentTable := by
  intro tab member
  rw [tables] at member
  split at member
  · cases member
  · rename_i some
    obtain rfl := List.mem_singleton.mp member
    rw [← tabled.bulkdata] at few
    obtain ⟨_, ran⟩ := tabled.written.operates
    have ran := Option.some.inj ran
    refine fewEntriesSmall tabled.inverse few o.host ?_
    rw [writeFragmentTable, if_neg some, fragmentTable] at ran
    generalize (init (.some image.compressor)).append (fragmentEntries o.host image.bulkdata).flatten env = result at ran
    obtain ⟨_ | _, _, _⟩ := result
    · cases ran
    · rfl

/- The table of fragments, while its size has 32 bits. -/
theorem Tabled.entries (tabled : Tabled decompress o image next env after start first trace s)
    (small : image.Small o env .fragmentTable) (f : Nat) (entry : Bytes)
    (found : (fragmentEntries o.host s.image.bd)[f]? = some entry) :
    lookupRecord decompress after.written (location next.fragTableLoc) 16 f = some entry := by
  obtain ⟨_, ran⟩ := tabled.written.operates
  rw [← tabled.bulkdata] at found
  have some : image.bulkdata.fragmentBlockCount ≠ 0 := by
    intro none
    have below := (List.getElem?_eq_some_iff.mp found).1
    rw [fragmentEntries, none] at below
    exact absurd below (Nat.not_lt_zero f)
  obtain ⟨tab, offset, indexed, _⟩ := fragmentTableIndexed some tabled.inverse (Option.some.inj ran)
    (small _ (by rw [tables, if_neg some]; exact List.mem_singleton_self _))
  rw [offset]
  exact recordFound (by decide) (fragmentEntriesSized o.host image.bulkdata) indexed found

/- Whatever was submitted besides, and however the threads took turns. -/
theorem filesReadBack (tabled : Tabled decompress o image next env after start first trace s)
    (fewer : s.image.bd.fragmentBlockCount ≤ fragmentLimit ∨
      s.image.bd.fragmentBlockCount < 2 ^ 32 ∧ image.Small o env .fragmentTable)
    (created : Session.Created trace i data) (length : data.length < 2 ^ 63) (rest : Bytes) :
    readFile decompress after.written (location next.fragTableLoc) image.options.blockSize
      (s.builder.inodes.front (serializeConfig o s.image.bd) (s.builder.inodes.inode i) ++ rest) = some data := by
  obtain ⟨numbered, small⟩ : s.image.bd.fragmentBlockCount < 2 ^ 32 ∧ image.Small o env .fragmentTable := by
    rcases fewer with few | both
    · exact ⟨lt_of_le_of_lt few (by decide), tabled.small few⟩
    · exact both
  obtain ⟨item, n, place, inode, realizes, complete, bounded, stands, _, read, contents⟩ :=
    tabled.record numbered created length rest
  have valid := tabled.valid
  -- the data area is spared by the table
  obtain ⟨depth, performed⟩ := tabled.written
  have spared : Spares first env.size env after :=
    addsSpares (performAdds (le_refl env.size) (show ¬ InHead .fragmentTable from id) performed)
  have keeps : Plan.Keeps after.written (Plan.upTo (image.threadConfig.rule (fun _ => true) image.options.dataCompression
      image.options.fragmentCompression) first item n) first := by
    intro start count low high
    rw [← realizes.size] at high
    rw [spared.read low (high.trans tabled.behind), tabled.kept start count low high, realizes.written]
  have content := realizes.contentRead (o := o) (t := s.builder.inodes) (restoresRule tabled.reverses _ _) keeps complete
    valid.1 (show image.options.blockSize < 2 ^ 24 by omega) tabled.fits bounded (tabled.entries small) stands
  simp only [readFile, bind, Option.bind_some, read, contents]
  exact content

end

theorem filedReadBack : ∃ next after, filedImage.Performs ⟨.little, 0, true⟩ (willing 115 filedLog) .fragmentTable
      (true, next, after) ∧
    readFile raw after.written (location next.fragTableLoc) 4 (filedImage.inodes.front
      (serializeConfig ⟨.little, 0, true⟩ filedBulkdata) (filedImage.inodes.inode 1) ++ []) = some filedData ∧
    readFile raw after.written (location next.fragTableLoc) 4 (filedImage.inodes.front
      (serializeConfig ⟨.little, 0, true⟩ filedBulkdata) (filedImage.inodes.inode 2) ++ []) = some filedMore := by
  obtain ⟨_, image, done⟩ := filedAlone filedImage.threadConfig rfl rfl
  obtain ⟨trace, b, prepared, first, second, _⟩ := done.prepared
  have ran : ((filedImage.perform ⟨.little, 0, true⟩ 0 (willing 115 filedLog) .fragmentTable).map Prod.fst) = some true := by
    decide
  obtain ⟨⟨_, next, after⟩, ran, rfl⟩ := Option.map_eq_some_iff.mp ran
  obtain ⟨start, run⟩ := prepared.run
  have tabled : Tabled raw ⟨.little, 0, true⟩ filedImage next (willing 115 filedLog) after start filedImage.headSize trace
      ⟨image, b, []⟩ := by
    refine ⟨run, prepared.calm, ?_, ?_, prepared.bulkdata, show 0 < 4 ∧ 4 ≤ 2 ^ 20 by decide, ?_,
      fun _ => (Option.some_ne_none []).symm, ?_, ?_, fun _ _ _ _ => by rw [prepared.written], prepared.size.ge, ⟨0, ran⟩⟩
    · rw [← prepared.bulkdata]
      rfl
    · rw [← prepared.bulkdata]
      rfl
    · intro src _ _ z gained
      cases gained
    · intro c own block _ _ z gained
      cases own
      cases gained
    · rw [← prepared.size]
      decide
  have few : image.bd.fragmentBlockCount ≤ fragmentLimit := by
    rw [← show filedBulkdata = image.bd from prepared.bulkdata]
    decide
  have one := filesReadBack tabled (.inl few) first (by decide) []
  have two := filesReadBack tabled (.inr ⟨lt_of_le_of_lt few (by decide), by decide⟩) second (by decide) []
  dsimp only at one two
  rw [← show filedBulkdata = image.bd from prepared.bulkdata, ← show filedImage.inodes = b.inodes from prepared.tree] at one two
  exact ⟨next, after, ⟨0, ran⟩, one, two⟩

/-! ### One entry more -/

section
variable {image : Assembly} {env : Env} {o : FinalizeConfig}

/- One entry more than the limit: the blocks take 2 bytes more than 32 bits count. -/
theorem limitPassed {tab : Metatable} {stream : Bytes} (holds : Holds raw tab stream)
    (many : stream.length = (fragmentLimit + 1) * 16) : ∃ b c rest, tab.flush.blocks = b :: c :: rest ∧
      rest.length = 524159 ∧ (encoded (framing raw) tab.flush.blocks).length = 2 ^ 32 + 2 ∧ tab.flush.size = 2 ∧
      b.size = metadataSize ∧ b.offset = 0 ∧ c.offset = 8194 := by
  have closed := flushClosed holds
  have count := closed.cut.count
  rw [closed.stream, many, fragmentLimit, metadataSize] at count
  have length : (encoded (framing raw) tab.flush.blocks).length = 2 ^ 32 + 2 := by
    rw [rawEncodedLength closed.stored, closed.stream, many, count]
    rfl
  obtain ⟨b, c, rest, shape⟩ : ∃ b c rest, tab.flush.blocks = b :: c :: rest := by
    cases own : tab.flush.blocks with
    | nil => simp [own] at count
    | cons b others =>
      cases others with
      | nil => simp [own] at count
      | cons c rest => exact ⟨b, c, rest, rfl⟩
  have stored := closed.stored b (by simp [shape])
  have full : b.size = metadataSize := by
    have full := closed.cut.full b (by simp [shape])
    rwa [rawContent stored, stored.size] at full
  refine ⟨b, c, rest, shape, ?_, length, ?_, full, ?_, ?_⟩
  · rw [shape] at count
    simp only [List.length_cons] at count
    omega
  · rw [closed.size, length]
    rfl
  · rw [closed.offsets 0 b (by rw [shape]; rfl)]
    rfl
  · rw [closed.offsets 1 c (by rw [shape]; rfl), shape]
    simp [start, frameLength stored, full, metadataSize, uint]

theorem tableOverLimit (inverse : Inverse (some image.compressor) raw)
    (called : image.compressor.compressMeta.isSome = true)
    (many : image.bulkdata.fragmentBlockCount = fragmentLimit + 1) (granting : env.Granting) (accepting : env.Accepting)
    (fits : env.size + 2 ^ 33 < 2 ^ 63) : ∃ b c rest after,
      image.Performs o env .fragmentTable (true, {image with fragTableLoc := some (env.size + 2)}, after) ∧
      after.written = env.written ++ Medium.consecutive env.size (blockBuffers o.host (b :: c :: rest)) ++
        [(env.size + 2, indexTable o.host env.size (b :: c :: rest))] ∧
      (∀ x ∈ b :: c :: rest, Stored raw x) ∧ rest.length = 524159 ∧ b.size = metadataSize ∧ b.offset = 0 ∧
      c.offset = 8194 := by
  obtain ⟨ok, _, holds⟩ := appendGranted (fragmentEntries o.host image.bulkdata).flatten (initHolds inverse) granting
  obtain ⟨mallocs, same⟩ := appendMemory (fragmentEntries o.host image.bulkdata).flatten.length
    (init (some image.compressor)) (fragmentEntries o.host image.bulkdata).flatten env
  change ((init (some image.compressor)).append (fragmentEntries o.host image.bulkdata).flatten env).2.2 = _ at same
  have ran : image.fragmentTable o.host env = ((init (some image.compressor)).append
      (fragmentEntries o.host image.bulkdata).flatten env).2.1.writeWithIndex o.host {env with mallocs := mallocs} := by
    rw [fragmentTable, ← same]
    exact if_pos ok
  have length : ([] ++ (fragmentEntries o.host image.bulkdata).flatten).length = (fragmentLimit + 1) * 16 := by
    rw [List.nil_append, Bytes.flattenLength (fragmentEntriesSized o.host image.bulkdata), ← many]
    simp [fragmentEntries]
  generalize ((init (some image.compressor)).append (fragmentEntries o.host image.bulkdata).flatten env).2.1 = tab at ran holds
  generalize [] ++ (fragmentEntries o.host image.bulkdata).flatten = stream at holds length
  obtain ⟨b, c, rest, shape, count, encoded, size, full, zero, second⟩ := limitPassed holds length
  obtain ⟨after, written, log⟩ := writeWithIndexAccepted o.host holds
    (show ({env with mallocs := mallocs} : Env).Accepting from accepting) (by
      rw [encoded]
      dsimp only
      omega) (by
      rw [size, shape]
      simp only [List.length_cons, count]
      omega)
  dsimp only at written log
  rw [size] at written log
  rw [shape] at log
  have stored := (flushClosed holds).stored
  rw [shape] at stored
  refine ⟨b, c, rest, after, ⟨0, performed.mpr ⟨?_, ?_⟩⟩, log, stored, count, full, zero, second⟩
  · have found : image.bulkdata.fragmentBlockCount ≠ 0 := by
      rw [many]
      exact Nat.succ_ne_zero _
    rw [operate, writeFragmentTable, if_neg found, ran, written]
  · simp [nullCalled, Metatable.nullCalled, init, Option.isNone_eq_false_iff.mpr called]

/- What is read as the entry are the first two of the index: the block seems to be compressed. -/
theorem entryMisread (inverse : Inverse (some image.compressor) raw)
    (called : image.compressor.compressMeta.isSome = true)
    (many : image.bulkdata.fragmentBlockCount = fragmentLimit + 1) (granting : env.Granting) (accepting : env.Accepting)
    (fits : env.size + 2 ^ 33 < 2 ^ 63) (plain : ((env.size + 8194) % 2 ^ 32).testBit 24 = false) : ∃ next after,
    image.Performs o env .fragmentTable (true, next, after) ∧
      readFragment raw after.written (location next.fragTableLoc) 0 = none := by
  obtain ⟨b, c, rest, after, ran, log, stored, count, full, zero, second⟩ :=
    tableOverLimit (o := o) inverse called many granting accepting fits
  have entry := indexOverFirst stored rfl full (by simp [count]) (by omega) zero rfl log
  rw [second] at entry
  have start : env.size < 256 ^ 8 := by omega
  have info : Bytes.field 4 (Bytes.le 8 (env.size + 8194)) =
      some ((env.size + 8194) % 2 ^ 32, Bytes.le 4 ((env.size + 8194) / 256 ^ 4)) := by
    rw [Bytes.leAdd 4 4]
    exact Bytes.fieldAppend 4 _ _
  refine ⟨_, after, ran, ?_⟩
  simp only [readFragment, location, Option.getD_some, entry, bind, Option.bind_some, Bytes.fieldBounded start, info, plain,
    readStored, Bool.not_false, if_true]
  rfl

end

section
open Image

def crowded (bd : Bulkdata) : Assembly :=
  {rootOnly with options := ⟨false, true, true, .small, false, 4, true, 4096, 12⟩, bulkdata := bd}

theorem crowdedTabled {data : Bytes} (some : 0 < data.length) (short : data.length < 4096)
    (long : 4096 < data.length + data.length) {n : Nat} (many : n = fragmentLimit + 1)
    (plain : ((96 + n * data.length + 8194) % 2 ^ 32).testBit 24 = false) :
    ∃ last next after trace, Tabled raw ⟨.little, 0, true⟩ (crowded last.bd) next (willing last.size last.written) after
        .fresh 96 trace ⟨last, Session.record (Session.tailed data n) .seal, []⟩ ∧
      last.bd.fragmentBlockCount = n ∧ Session.Created trace 1 data ∧
      readFragment raw after.written (location next.fragTableLoc) 0 = none := by
  have never (src : Bytes) : (crowded (.init true true)).threadConfig.compress false src ≠ .some [] :=
    (Option.some_ne_none []).symm
  have later : (crowded (.init true true)).threadConfig.later ≠ [] := by simp [threadConfig, operations]
  have positive : 0 < n := by
    rw [many]
    exact Nat.succ_pos _
  obtain ⟨trace, last, run, each, created, closed, done⟩ := Session.tailsFinished later never some short n
  obtain ⟨events, _, _, apart⟩ := Session.apartRun later run fun l member => (each l member).calm
  have realizes := planRealized apart.image apart.begun.clean (apart.buffered (Session.bufferedUnlessNothing never run))
    (apart.begun.closed closed).2 done
  have listed : submitted (labels events) = List.replicate n (Session.tail data) ++ [⟨.closingPiece, ⟨[], 0, 0⟩⟩] := by
    rw [(apart.gathered closed).1, ← (Session.tailedBuilder some short n).2.1]
    rfl
  rw [listed] at realizes
  obtain ⟨size, count⟩ := @Plan.piecesClosed ((crowded (.init true true)).threadConfig.rule (fun _ => true) true true) 96
    (Session.tail data) ⟨.closingPiece, ⟨[], 0, 0⟩⟩ rfl (Bytes.sliceLength (by simp [Session.tail])) long (fun _ _ => rfl) rfl
    _ positive
  have counted : last.bd.fragmentBlockCount = n := by
    have length := congrArg List.length realizes.fragments
    rw [List.length_map, List.length_map, List.length_range] at length
    exact length.trans count
  have sized : last.size = 96 + n * data.length := realizes.size.trans size
  have bound : n * data.length ≤ (fragmentLimit + 1) * 4096 := Nat.mul_le_mul many.le short.le
  unfold fragmentLimit at bound
  have inverse : Inverse (.some (crowded last.bd).compressor) raw := by
    intro c own block _ _ z gained
    cases own
    cases gained
  obtain ⟨next, after, written, lost⟩ := @entryMisread (crowded last.bd) (willing last.size last.written) ⟨.little, 0, true⟩
    inverse rfl (counted.trans many) (fun _ => rfl) (fun _ => rfl) (by
      change last.size + _ < _
      omega) (by
      change ((last.size + 8194) % _).testBit _ = _
      rw [sized]
      exact plain)
  refine ⟨last, next, after, trace, ⟨run, fun l member => (each l member).calm, closed, done, rfl,
    show 0 < 4096 ∧ 4096 ≤ 2 ^ 20 by decide, ?_, never, inverse, by dsimp only; omega, fun _ _ _ _ => rfl, le_refl _,
    written⟩, counted, created positive, lost⟩
  intro src _ _ z gained
  cases gained

/- A file that is all tail, in the fragment block whose entry is lost. -/
theorem crowdedLost {decompress : Bytes → Option Bytes} {o : FinalizeConfig} {image next : Assembly} {env after start : Env}
    {trace : List (Event Session ((Call × Bool) ⊕ Label))} {s : Session} {data : Bytes} {i first : Nat}
    (tabled : Tabled decompress o image next env after start first trace s) (some : 0 < data.length)
    (short : data.length < image.options.blockSize) (small : image.options.fragments = .small)
    (numbered : s.image.bd.fragmentBlockCount < 2 ^ 32) (created : Session.Created trace i data)
    (own : (s.builder.inodes.inode i).body = .regular (Inodes.fileInode .small image.options.blockSize data 0))
    (lost : readFragment decompress after.written (location next.fragTableLoc) 0 = none) (length : data.length < 2 ^ 63)
    (rest : Bytes) :
    readFile decompress after.written (location next.fragTableLoc) image.options.blockSize
      (s.builder.inodes.front (serializeConfig o s.image.bd) (s.builder.inodes.inode i) ++ rest) = none := by
  obtain ⟨item, n, place, inode, realizes, _, _, stands, body, read, contents⟩ := tabled.record numbered created length rest
  have sliced : Inodes.slicing .small image.options.blockSize data.length = (0, data.length) := if_pos short
  have whole : data.length ≠ 0 := by omega
  rw [small] at stands body contents
  have reg (place : Nat) : Inodes.fileInode .small image.options.blockSize data place =
      ⟨data.length, 0, [], .some place⟩ := by
    simp [Inodes.fileInode, sliced, List.ne_nil_of_length_pos some]
  obtain rfl : place = 0 := by
    rw [own, reg, reg] at body
    cases body
    rfl
  have tail := stands.tail (by rw [sliced]; exact whole)
  rw [sliced] at tail
  obtain ⟨inside, own⟩ : 0 < n ∧ item 0 = _ := tail
  obtain ⟨fragment, _⟩ := realizes.piece inside (by rw [own])
  have number : (s.image.bd.chunk 0).fragmentBlock = .some 0 := by
    rw [fragment]
    exact congrArg (fun p : Plan => Option.some p.room.1) (Plan.flushForFits fun flushes => by
      obtain ⟨_, current⟩ := Plan.flushesCurrent flushes
      cases current)
  have seen : readContent decompress after.written (location next.fragTableLoc) image.options.blockSize inode.data = none := by
    rw [contents, reg]
    simp only [Inodes.bodyData, readContent, List.map_nil, readExtents, Option.map_some, serializeConfig, number,
      Option.getD_some, readTail, lost, bind, Option.bind_some, Option.bind_none]
  simp only [readFile, bind, read]
  exact seen

/- 268369936 files of 2500 bytes each, in blocks of 4096. -/
theorem entryPastLimitLost : ∃ (o : FinalizeConfig) (image next : Assembly) (env after start : Env) (first : Nat)
    (trace : List (Event Session ((Call × Bool) ⊕ Label))) (s : Session),
    Tabled raw o image next env after start first trace s ∧ s.image.bd.fragmentBlockCount = fragmentLimit + 1 ∧
      Session.Created trace 1 (List.replicate 2500 7) ∧ ∀ rest, readFile raw after.written (location next.fragTableLoc)
        image.options.blockSize (s.builder.inodes.front (serializeConfig o s.image.bd) (s.builder.inodes.inode 1) ++ rest) ≠
          some (List.replicate 2500 7) := by
  obtain ⟨n, many⟩ : ∃ n, n = fragmentLimit + 1 := ⟨_, rfl⟩
  have long : (List.replicate 2500 (7 : UInt8)).length = 2500 := List.length_replicate
  generalize List.replicate 2500 (7 : UInt8) = data at long ⊢
  have positive : 0 < n := by
    rw [many]
    exact Nat.succ_pos _
  obtain ⟨last, next, after, trace, tabled, counted, created, lost⟩ := @crowdedTabled data (by omega) (by omega) (by omega) n
    many (by
      rw [many, long]
      decide)
  refine ⟨_, _, next, _, after, _, _, trace, _, tabled, counted.trans many, created, fun rest found => ?_⟩
  have none := crowdedLost tabled (show 0 < data.length by omega) (show data.length < 4096 by omega) rfl
    (lt_of_eq_of_lt (counted.trans many) (by decide)) created
    ((Session.tailedBuilder (show 0 < data.length by omega) (show data.length < 4096 by omega) n).2.2.2 positive) lost
    (by omega) rest
  rw [none] at found
  cases found

end

end Assembly
end Libsqfs
