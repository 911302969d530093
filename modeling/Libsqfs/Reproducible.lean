import Libsqfs.Finalize
import Libsqfs.ImageStat

/-! The same calls make the same image, byte for byte, whatever the threads do
between them. -/
namespace Libsqfs
open Transition

/-! ### What the calls come to when there is memory for them -/

namespace Builder
variable {o : BuilderConfig} {b next : Builder} {c : Call}

def replay (o : BuilderConfig) (calls : List Call) : Builder :=
  calls.foldl (fun b c => {(b.run o c).2 with env := .fresh}) (.init o .fresh)

theorem submitBlocksFresh (data : Bytes) (blockSize : Nat) (ns : List Nat) :
    (Inodes.submitBlocks data blockSize ns .fresh).1 = true ∧
      (Inodes.submitBlocks data blockSize ns .fresh).2.2 = .fresh := by
  induction ns with
  | nil => exact ⟨rfl, rfl⟩
  | cons n ns ih => exact ih

theorem regularFresh (fragments : FragmentsOption) (blockSize chunks : Nat) (t : Inodes) (attr : InodeAttr)
    (data : Bytes) : ∃ i items u after,
      t.regularInodeCreate fragments blockSize chunks attr (some data) .fresh = (some i, items, u, after) := by
  have sliced := submitBlocksFresh data blockSize (List.range (Inodes.slicing fragments blockSize data.length).1)
  have granted : Env.fresh.malloc = (true, .fresh) := rfl
  obtain ⟨ok, after⟩ := sliced
  simp only [Inodes.regularInodeCreate, granted, Bool.not_true, Bool.false_eq_true, if_false, ok, after]
  split
  · exact ⟨_, _, _, _, rfl⟩
  · exact ⟨_, _, _, _, rfl⟩

/- A call that was granted what it asked for does what it does with all memory. -/
theorem grantedFresh (ran : b.run o c = (true, next)) :
    (({b with env := .fresh} : Builder).run o c).2.inodes = next.inodes ∧
      (({b with env := .fresh} : Builder).run o c).2.items = next.items := by
  cases c with
  | directory attr =>
    simp only [run, Inodes.directoryInodeCreate] at ran ⊢
    split at ran
    · cases ran
    · cases ran
      exact ⟨rfl, rfl⟩
  | symlink attr name =>
    simp only [run, Inodes.symlinkInodeCreate] at ran ⊢
    split at ran
    · cases ran
    · split at ran
      · cases ran
      · cases ran
        exact ⟨rfl, rfl⟩
  | device attr type major minor =>
    simp only [run, Inodes.deviceInodeCreate] at ran ⊢
    split at ran
    · cases ran
    · split at ran
      · cases ran
      · cases ran
        exact ⟨rfl, rfl⟩
  | fifo attr =>
    simp only [run, Inodes.fifoInodeCreate] at ran ⊢
    split at ran
    · cases ran
    · cases ran
      exact ⟨rfl, rfl⟩
  | regular attr data =>
    cases data with
    | none => cases ran
    | some data =>
      obtain ⟨i, items, u, after, fresh⟩ := regularFresh o.fragments o.blockSize b.items.length b.inodes attr data
      simp only [run, fresh] at ran ⊢
      cases made : Inodes.regularInodeCreate o.fragments o.blockSize b.items.length b.inodes attr (some data) b.env with
      | mk i? rest =>
        obtain ⟨items', u', after'⟩ := rest
        rw [made] at ran
        obtain ⟨some, rfl⟩ := Prod.mk.inj ran
        obtain ⟨i', rfl⟩ := Option.isSome_iff_exists.mp some
        obtain ⟨rfl, rfl, rfl⟩ := Inodes.createdFile fresh
        obtain ⟨rfl, rfl, rfl⟩ := Inodes.createdFile made
        exact ⟨rfl, rfl⟩
  | addEntry parent name i =>
    simp only [run, Inodes.directoryAddEntry] at ran ⊢
    split at ran
    · cases ran
    · rename_i unparented
      rw [if_neg unparented]
      split at ran
      · cases ran
      · split at ran
        · cases ran
        · cases ran
          exact ⟨rfl, rfl⟩
  | setRoot dir =>
    obtain ⟨_, rfl⟩ := Prod.mk.inj ran
    exact ⟨rfl, rfl⟩

theorem replaySnoc (o : BuilderConfig) (calls : List Call) (c : Call) :
    replay o (calls ++ [c]) = {((replay o calls).run o c).2 with env := .fresh} := by
  rw [replay, List.foldl_append]
  rfl

theorem replayEnv (o : BuilderConfig) (calls : List Call) : (replay o calls).env = .fresh := by
  rcases List.eq_nil_or_concat' calls with rfl | ⟨rest, c, rfl⟩
  · rfl
  · rw [replaySnoc]

end Builder

theorem Inodes.fileItemsKind {fragments : FragmentsOption} {blockSize : Nat} {data : Bytes} {x : Item}
    (member : x ∈ fileItems fragments blockSize data) : x.kind ≠ .closingPiece := by
  rcases List.mem_append.mp member with block | tail
  · obtain ⟨_, _, rfl⟩ := List.mem_map.mp block
    simp
  · rw [tailItems] at tail
    split at tail
    · cases tail
    · rw [List.mem_singleton.mp tail]
      simp

namespace Session
open Image

def callsOf (trace : List (Event Session ((Call × Bool) ⊕ Label))) : List Call :=
  ((labels trace).filterMap callLabel).map Prod.fst

/- None of them was refused. -/
def Granted (trace : List (Event Session ((Call × Bool) ⊕ Label))) : Prop :=
  ∀ x ∈ (labels trace).filterMap callLabel, x.2 = true

def pieces (items : List Item) : List Item := items.filter fun x => x.kind ≠ .closingPiece

structure Replayed (config : BuilderConfig) (trace : List (Event Session ((Call × Bool) ⊕ Label))) (s : Session) : Prop where
  inodes : s.builder.inodes = (Builder.replay config (callsOf trace)).inodes
  items : pieces s.builder.items = (Builder.replay config (callsOf trace)).items
  adding : s.image.bd.mayAddChunks = true → ∀ x ∈ s.builder.items, x.kind ≠ .closingPiece

section
variable {o : ImageConfig} {config : BuilderConfig} {s next : Session} {l : (Call × Bool) ⊕ Label}
  {trace : List (Event Session ((Call × Bool) ⊕ Label))}

theorem piecesSelf {items : List Item} (unclosed : ∀ x ∈ items, x.kind ≠ .closingPiece) : pieces items = items :=
  List.filter_eq_self.mpr fun x member => decide_eq_true (unclosed x member)

theorem callUnclosed {c : Call} {ok : Bool} {b after : Builder} (taken : b.Step config (c, ok) after)
    (unclosed : ∀ x ∈ b.items, x.kind ≠ .closingPiece) : ∀ x ∈ after.items, x.kind ≠ .closingPiece := by
  intro x member
  have result := taken.2
  cases c with
  | regular attr data =>
    cases result
    rcases List.mem_append.mp member with old | new
    · exact unclosed x old
    · cases data with
      | none => cases new
      | some data =>
        have listed := (Inodes.createdPrefix b.inodes attr data b.env).subset new
        exact Inodes.fileItemsKind listed
  | directory | symlink | device | fifo | addEntry | setRoot =>
    cases result
    exact unclosed x member

theorem Replayed.call (replayed : Replayed config trace s) (adding : s.image.bd.mayAddChunks = true) {c : Call}
    (taken : s.builder.Step config (c, true) next.builder) (seen : callLabel l = some (c, true)) :
    Replayed config (trace ++ [⟨s, l, next⟩]) next := by
  have unclosed := replayed.adding adding
  have after := callUnclosed taken unclosed
  have items := replayed.items
  rw [piecesSelf unclosed] at items
  have before : ({s.builder with env := .fresh} : Builder) = Builder.replay config (callsOf trace) := by
    dsimp only
    rw [replayed.inodes, items]
    exact congrArg (Builder.mk _ _) (Builder.replayEnv config (callsOf trace)).symm
  have calls : callsOf (trace ++ [⟨s, l, next⟩]) = callsOf trace ++ [c] := by
    simp [callsOf, seen]
  obtain ⟨inodes, items'⟩ := Builder.grantedFresh taken.2
  rw [before] at inodes items'
  refine ⟨?_, ?_, fun _ => after⟩
  · rw [calls, Builder.replaySnoc, inodes]
  · rw [calls, Builder.replaySnoc, piecesSelf after, items']

theorem Replayed.still (replayed : Replayed config trace s) (unseen : callLabel l = none)
    (inodes : next.builder.inodes = s.builder.inodes) (items : pieces next.builder.items = pieces s.builder.items)
    (adding : next.image.bd.mayAddChunks = true → s.image.bd.mayAddChunks = true ∧ next.builder.items = s.builder.items) :
    Replayed config (trace ++ [⟨s, l, next⟩]) next := by
  have calls : callsOf (trace ++ [⟨s, l, next⟩]) = callsOf trace := by
    simp [callsOf, unseen]
  refine ⟨by rw [calls, inodes, replayed.inodes], by rw [calls, items, replayed.items], fun more => ?_⟩
  obtain ⟨before, same⟩ := adding more
  rw [same]
  exact replayed.adding before

theorem piecesClosing (items : List Item) : pieces (items ++ [⟨.closingPiece, ⟨[], 0, 0⟩⟩]) = pieces items := by
  simp [pieces]

theorem piecesClosed {items : List Item} {n : Nat} {item : Nat → Item} (listed : items = (List.range n).map item)
    (member : ⟨.closingPiece, ⟨[], 0, 0⟩⟩ ∈ items)
    (last : ∀ c, c < n → (item c).kind = .closingPiece → c + 1 = n) :
    items = pieces items ++ [⟨.closingPiece, ⟨[], 0, 0⟩⟩] := by
  rw [listed] at member
  obtain ⟨c, inside, same⟩ := List.mem_map.mp member
  have below := List.mem_range.mp inside
  obtain rfl := last c below (by rw [same])
  rw [List.range_succ, List.map_append, List.map_singleton, same] at listed
  have unclosed : ∀ x ∈ (List.range c).map item, x.kind ≠ .closingPiece := by
    intro x inside closing
    obtain ⟨d, early, rfl⟩ := List.mem_map.mp inside
    have before := List.mem_range.mp early
    have := last d (by omega) closing
    omega
  rw [listed, piecesClosing, piecesSelf unclosed]

theorem Replayed.step (replayed : Replayed config trace s) {events : List (Event Image Label)} (begun : Begun o events s.image)
    (granted : ∀ x, callLabel l = some x → x.2 = true) (taken : Step o config s l next) :
    Replayed config (trace ++ [⟨s, l, next⟩]) next := by
  cases taken with
  | @call c ok after free idle other taken =>
    have seen : callLabel (.inl (c, ok)) = some (c, ok) := by
      cases c with
      | setRoot dir => exact absurd rfl (other dir)
      | _ => rfl
    obtain rfl : ok = true := granted _ seen
    exact replayed.call (begun.adding free.1) taken seen
  | @setRoot dir image after idle missing taken rooted found =>
    obtain ⟨free, _⟩ := rootStep rooted.2 missing found
    exact replayed.call (begun.adding free.1) taken rfl
  | setRootFails => exact replayed.still rfl rfl rfl fun more => ⟨more, rfl⟩
  | @submit i rest image shape taken =>
    refine replayed.still rfl rfl rfl fun more => ⟨?_, rfl⟩
    have move := taken.2
    generalize image = after at move
    cases move with
    | submit free => exact begun.adding free.1
  | @work i image other root busy taken =>
    obtain ⟨_, inodes⟩ := recordItems s.builder i
    refine replayed.still rfl inodes ?_ fun adding => ?_
    · cases i with
      | «seal» => exact piecesClosing _
      | _ => rfl
    · have unsealed : i ≠ .seal := by
        rintro rfl
        have move := taken.2
        dsimp only at adding
        generalize image = after at move adding
        cases move <;> cases adding
      refine ⟨(begun.ordered.still taken.2 other unsealed).mayAddChunks adding, ?_⟩
      cases i <;> first | rfl | exact absurd rfl unsealed

theorem runReplayed {compressBlocks compressFragments : Bool} {size : Nat} {env : Env} (later : o.later ≠ [])
    (run : Run (Step o config) (init config compressBlocks compressFragments size env) trace s)
    (calm : ∀ l ∈ labels trace, Calm l) (granted : Granted trace) : Replayed config trace s := by
  have allowed : Obeys (fun _ l => Calm l ∧ ∀ x, callLabel l = some x → x.2 = true) trace := fun e member =>
    ⟨calm _ (List.mem_map_of_mem member), fun x seen => granted x (List.mem_filterMap.mpr ⟨_, List.mem_map_of_mem member, seen⟩)⟩
  refine (Run.history (I := fun trace s => (∃ events calls b,
    Apart o config (init config compressBlocks compressFragments size env) trace s events calls b) ∧
      Replayed config trace s) ?_ ?_ run allowed).2
  · exact ⟨⟨[], [], _, initApart compressBlocks compressFragments size env⟩, rfl, rfl, fun _ x none => nomatch none⟩
  · intro trace s l next ⟨⟨events, calls, b, apart⟩, replayed⟩ ⟨calm, granted⟩ taken
    exact ⟨apart.step later calm taken, replayed.step apart.begun granted taken⟩

end
end Session

/-! ### Every regular inode is that of a file that was created -/

namespace Inodes
variable {t t' : Inodes} {c : Call} {ok : Bool} {i : Nat} {reg : RegularInode}

theorem claimedRegular {p j : Nat} (body : ((t.claimed p j).inode i).body = .regular reg) :
    (t.inode i).body = .regular reg := by
  rw [claimedInode] at body
  split at body
  · dsimp only at body
    split at body
    · cases body
    · exact body
  · exact body

theorem Effect.regular (linkage : t.Linkage) (valid : c.Valid t) (effect : t.Effect c ok t')
    (body : (t'.inode i).body = .regular reg) :
    (t.inode i).body = .regular reg ∨ i = t.count ∧ ∃ attr, t' = (t.inodeInit attr (.regular reg)).2 := by
  cases effect with
  | refused => exact .inl body
  | @created _ _ attr made =>
    rw [initInode] at body
    split at body
    · rename_i new
      dsimp only at body
      subst body
      exact .inr ⟨new, attr, rfl⟩
    · exact .inl body
  | failed => exact .inl (claimedRegular body)
  | added =>
    rw [(addedEntries linkage valid).inode] at body
    dsimp only at body
    split at body
    · cases body
    · exact .inl (claimedRegular body)
  | rooted =>
    rw [rootedInode] at body
    exact .inl body

end Inodes

namespace Session
open Image

section
variable {o : ImageConfig} {config : BuilderConfig} {s next : Session} {l : (Call × Bool) ⊕ Label}
  {trace : List (Event Session ((Call × Bool) ⊕ Label))} {b after : Builder} {i : Nat} {reg : RegularInode}

theorem regularCreated (linkage : b.inodes.Linkage) {c : Call} {attr : InodeAttr}
    (taken : b.Step config (c, true) after) (made : after.inodes = (b.inodes.inodeInit attr (.regular reg)).2) :
    ∃ attr data, c = .regular attr (some data) := by
  have body : (after.inodes.inode b.inodes.count).body = .regular reg := by
    rw [made, Inodes.initInode, if_pos rfl]
  have counted : after.inodes.count = b.inodes.count + 1 := by
    rw [made]
    rfl
  have other {attr : InodeAttr} {x : InodeBody} (same : after.inodes = (b.inodes.inodeInit attr x).2) :
      x = .regular reg := by
    rw [same, Inodes.initInode, if_pos rfl] at body
    exact body
  obtain ⟨valid, effect⟩ := Builder.stepEffect taken
  have result := taken.2
  cases c with
  | regular attr data =>
    cases data with
    | none => cases result
    | some data => exact ⟨attr, data, rfl⟩
  | directory attr =>
    simp only [Builder.run, Inodes.directoryInodeCreate] at result
    split at result
    · cases result
    · cases result
      cases other rfl
  | symlink attr name =>
    simp only [Builder.run, Inodes.symlinkInodeCreate] at result
    split at result
    · cases result
    · split at result
      · cases result
      · cases result
        cases other rfl
  | device attr type major minor =>
    simp only [Builder.run, Inodes.deviceInodeCreate] at result
    split at result
    · cases result
    · split at result
      · cases result
      · cases result
        cases other rfl
  | fifo attr =>
    simp only [Builder.run, Inodes.fifoInodeCreate] at result
    split at result
    · cases result
    · cases result
      cases other rfl
  | addEntry p name j =>
    dsimp only at effect valid
    generalize after.inodes = u at effect counted
    cases effect with
    | created _ creates => exact absurd rfl (creates p name j 0).1
    | added =>
      rw [(Inodes.addedEntries linkage valid).count, (Inodes.claimedRest ..).2.2.1] at counted
      omega
  | setRoot dir =>
    dsimp only at effect
    generalize after.inodes = u at effect counted
    cases effect with
    | created _ creates => exact absurd rfl (creates 0 [] 0 dir).2
    | rooted => exact absurd counted (Nat.ne_of_lt (Nat.lt_succ_self _))

structure Regulars (trace : List (Event Session ((Call × Bool) ⊕ Label))) (s : Session) : Prop where
  linkage : s.builder.inodes.Linkage
  created : ∀ i reg, (s.builder.inodes.inode i).body = .regular reg → ∃ data, Created trace i data

theorem Created.later {data : Bytes} (created : Created trace i data) (e : Event Session ((Call × Bool) ⊕ Label)) :
    Created (trace ++ [e]) i data := by
  obtain ⟨x, member, own⟩ := created
  exact ⟨x, List.mem_append_left _ member, own⟩

theorem Regulars.call (regulars : Regulars trace s) {c : Call} (taken : s.builder.Step config (c, true) next.builder) :
    Regulars (trace ++ [⟨s, .inl (c, true), next⟩]) next := by
  obtain ⟨valid, effect⟩ := Builder.stepEffect taken
  refine ⟨regulars.linkage.effect valid effect, fun i reg body => ?_⟩
  rcases effect.regular regulars.linkage valid body with old | ⟨new, attr, made⟩
  · obtain ⟨data, created⟩ := regulars.created i reg old
    exact ⟨data, created.later _⟩
  · obtain ⟨attr, data, rfl⟩ := regularCreated regulars.linkage taken made
    exact ⟨data, _, List.mem_append_right _ (List.mem_singleton_self _), attr, rfl, new.symm⟩

theorem Regulars.still (regulars : Regulars trace s) (inodes : next.builder.inodes = s.builder.inodes) :
    Regulars (trace ++ [⟨s, l, next⟩]) next := by
  refine ⟨by rw [inodes]; exact regulars.linkage, fun i reg body => ?_⟩
  rw [inodes] at body
  obtain ⟨data, created⟩ := regulars.created i reg body
  exact ⟨data, created.later _⟩

theorem runRegulars {compressBlocks compressFragments : Bool} {size : Nat} {env : Env}
    (run : Run (Step o config) (init config compressBlocks compressFragments size env) trace s)
    (granted : Granted trace) : Regulars trace s := by
  have allowed : Obeys (fun _ l => ∀ x, callLabel l = some x → x.2 = true) trace := fun e member x seen =>
    granted x (List.mem_filterMap.mpr ⟨_, List.mem_map_of_mem member, seen⟩)
  refine Run.history (I := Regulars) ⟨Inodes.linkageInit _, fun i reg body => ?_⟩ ?_ run allowed
  · cases body
  · intro trace s l next regulars granted taken
    cases taken with
    | @call c ok after free idle other taken =>
      obtain rfl : ok = true := granted (c, ok) (by
        cases c with
        | setRoot dir => exact absurd rfl (other dir)
        | _ => rfl)
      exact regulars.call taken
    | setRoot idle missing taken rooted found => exact regulars.call taken
    | setRootFails => exact regulars.still rfl
    | submit => exact regulars.still rfl
    | @work i image other root busy taken => exact regulars.still (recordItems s.builder i).2

end
end Session

/-! ### The tree is written alike -/

namespace Inodes
variable {o o' : SerializeConfig} {t u : Inodes} {i : Nat} {reg : RegularInode} {env : Env}

structure SamePlaces (o o' : SerializeConfig) (reg : RegularInode) : Prop where
  blocks : ∀ c ∈ reg.blocks, o'.block c = o.block c
  tail : ∀ c, reg.tailPiece = some c → o'.piece c = o.piece c

structure Agrees (o o' : SerializeConfig) (t : Inodes) : Prop where
  host : o'.host = o.host
  stale : o'.stale = o.stale
  regular : ∀ i reg, (t.inode i).body = .regular reg → SamePlaces o o' reg

theorem Agrees.framed (agrees : Agrees o o' t) (framed : Framed t u) : Agrees o o' u where
  host := agrees.host
  stale := agrees.stale
  regular i reg body := by
    have own := (framed.inode i).sameBody (by
      rintro ⟨_, directory⟩
      rw [body] at directory
      cases directory)
    exact agrees.regular i reg (own.trans body)

theorem SamePlaces.blockList (same : SamePlaces o o' reg) (host : o'.host = o.host) :
    blockList o' reg = blockList o reg := by
  unfold Libsqfs.blockList
  rw [host]
  exact List.flatMap_congr fun c member => by rw [same.blocks c member]

theorem SamePlaces.header (same : SamePlaces o o' reg) (host : o'.host = o.host) (x : Inode) :
    regularType o' x reg = regularType o x reg ∧ regularHeader o' x reg = regularHeader o x reg := by
  have start : startBlock o' reg = startBlock o reg ∧ regularType o' x reg = regularType o x reg := by
    cases blocks : reg.blocks with
    | nil => simp only [startBlock, regularType, blocks, and_self]
    | cons c rest =>
      have first := same.blocks c (by rw [blocks]; exact List.mem_cons_self)
      simp only [startBlock, regularType, blocks, first, and_self]
  have tail : tailFragment o' reg = tailFragment o reg := by
    cases piece : reg.tailPiece with
    | none => simp only [tailFragment, piece]
    | some c => simp only [tailFragment, piece, same.tail c piece]
  refine ⟨start.2, ?_⟩
  unfold regularHeader
  rw [start.1, start.2, tail, host]

theorem encodeCongr (agrees : Agrees o o' t) (i : Nat) (env : Env) : t.inodeEncode o' i env = t.inodeEncode o i env := by
  obtain ⟨host, stale, regular⟩ := agrees
  unfold inodeEncode
  cases body : (t.inode i).body with
  | regular reg =>
    have same := regular i reg body
    obtain ⟨type, header⟩ := same.header host (t.inode i)
    simp only [regularInodeSerialize, type, header, same.blockList host]
  | directory dir => simp only [directoryInodeEncode, host]
  | symlink name => simp only [symlinkInodeSerialize, host]
  | device type major minor => simp only [deviceInodeSerialize, host]
  | fifo => simp only [fifoInodeSerialize, host]

theorem directoryWriteCongr (agrees : Agrees o o' t) (d : Nat) (env : Env) :
    t.directoryWrite o' d env = t.directoryWrite o d env := by
  simp only [directoryWrite, directoryEncode, directoryInodeEncode, agrees.host, agrees.stale]

theorem serializeFramed {fuel : Nat} {ok : Bool} {after : Env}
    (ran : inodeSerialize o fuel t i env = some (ok, u, after)) : Framed t u :=
  (serializeRelates (R := fun _ _ => True) (fun _ => trivial) (fun _ _ => trivial) (fun _ _ _ => trivial)
    (fun _ _ _ _ _ => trivial) (fun _ _ _ _ => trivial) ran).1

/- The record of an inode tells of the bulk data only where its own chunks are. -/
theorem serializeCongr (agrees : Agrees o o' t) (fuel : Nat) (env : Env) :
    inodeSerialize o' fuel t i env = inodeSerialize o fuel t i env := by
  induction fuel generalizing t i env with
  | zero => rfl
  | succ fuel ih =>
    have each (is : List Nat) {t : Inodes} (agrees : Agrees o o' t) (env : Env) :
        serializeEach (inodeSerialize o' fuel) is t env = serializeEach (inodeSerialize o fuel) is t env ∧
          ∀ u after, serializeEach (inodeSerialize o fuel) is t env = some (true, u, after) → Agrees o o' u := by
      induction is generalizing t env with
      | nil =>
        refine ⟨rfl, fun u after ran => ?_⟩
        cases ran
        exact agrees
      | cons i rest ih' =>
        rw [serializeEach, serializeEach, ih agrees]
        rcases first : inodeSerialize o fuel t i env with _ | ⟨_ | _, v, mid⟩
        · exact ⟨rfl, fun _ _ ran => by cases ran⟩
        · exact ⟨rfl, fun _ _ ran => by cases ran⟩
        · exact ih' (agrees.framed (serializeFramed first)) mid
    by_cases blank : (t.inode i).encodedType = 0
    · by_cases is : (t.inode i).IsDirectory
      · have begun : Agrees o o' {t with begun := t.begun ++ [i]} := ⟨agrees.host, agrees.stale, agrees.regular⟩
        obtain ⟨same, after⟩ := each (t.children i) begun env
        rw [serializeDirectory o' fuel env blank is, serializeDirectory o fuel env blank is, same]
        rcases entries : serializeEach (inodeSerialize o fuel) (t.children i) {t with begun := t.begun ++ [i]} env with
          _ | ⟨_ | _, v, mid⟩
        · rfl
        · rfl
        · simp only [directoryWriteCongr (after _ _ entries)]
      · rw [serializeLeaf o' fuel env blank is, serializeLeaf o fuel env blank is, encodeCongr agrees]
    · rw [serializeAgain o' fuel env blank, serializeAgain o fuel env blank]

end Inodes

/-! ### The tables are written alike -/

namespace Assembly
variable {o : FinalizeConfig} {image next : Assembly} {bd : Bulkdata} {env after : Env} {op : Later} {ops : List Later}
  {depth : Nat}

def holding (image : Assembly) (bd : Bulkdata) : Assembly := {image with bulkdata := bd}

structure SameBlocks (host : Bytes.Host) (bd bd' : Bulkdata) : Prop where
  count : bd'.fragmentBlockCount = bd.fragmentBlockCount
  entries : fragmentEntries host bd' = fragmentEntries host bd

theorem performBulkdata {ok : Bool} (ran : image.perform o depth env op = some (ok, next, after)) :
    next.bulkdata = image.bulkdata := by
  replace ran := (performed.mp ran).1
  cases op with
  | serialize =>
    simp only [operate, Option.bind_eq_some_iff, Option.map_eq_some_iff] at ran
    obtain ⟨root, _, serialized, _, same⟩ := ran
    cases same
    rfl
  | fragmentTable =>
    simp only [operate, writeFragmentTable] at ran
    split at ran <;> cases ran <;> rfl
  | xattrTable =>
    obtain ⟨_, _, same⟩ := Option.map_eq_some_iff.mp ran
    cases same
    rfl
  | superblock =>
    obtain ⟨_, _, same⟩ := Option.map_eq_some_iff.mp ran
    cases same
    rfl
  | _ =>
    cases ran
    rfl

theorem operateCongr (same : SameBlocks o.host image.bulkdata bd) (other : op ≠ .serialize) :
    (image.holding bd).operate o depth env op =
      (image.operate o depth env op).map fun r => (r.1, r.2.1.holding bd, r.2.2) := by
  obtain ⟨count, entries⟩ := same
  cases op with
  | serialize => exact absurd rfl other
  | fragmentTable =>
    simp only [operate, writeFragmentTable, fragmentTable, holding, count, entries, Option.map_some]
    split <;> rfl
  | xattrTable =>
    simp only [operate, holding, Option.map_map]
    rfl
  | superblock =>
    simp only [operate, holding, writeSuperblock, superblock, flags, count, Option.map_map]
    rfl
  | _ => rfl

theorem operateSerializeCongr
    (agrees : Inodes.Agrees (serializeConfig o image.bulkdata) (serializeConfig o bd) image.inodes) :
    (image.holding bd).operate o depth env .serialize =
      (image.operate o depth env .serialize).map fun r => (r.1, r.2.1.holding bd, r.2.2) := by
  simp only [operate, holding, Option.map_bind]
  refine congrArg _ (funext fun root => ?_)
  rw [Inodes.serializeCongr agrees]
  simp only [Function.comp_apply, Option.map_map]
  rfl

theorem nullCalledCongr (same : SameBlocks o.host image.bulkdata bd) :
    (image.holding bd).nullCalled o env op (next.holding bd) = image.nullCalled o env op next := by
  obtain ⟨count, entries⟩ := same
  cases op with
  | fragmentTable => simp only [nullCalled, fragmentTable, holding, count, entries]
  | _ => rfl

theorem performCongr (same : SameBlocks o.host image.bulkdata bd)
    (agrees : op = .serialize →
      Inodes.Agrees (serializeConfig o image.bulkdata) (serializeConfig o bd) image.inodes) :
    (image.holding bd).perform o depth env op =
      (image.perform o depth env op).map fun r => (r.1, r.2.1.holding bd, r.2.2) := by
  have whole : (image.holding bd).operate o depth env op =
      (image.operate o depth env op).map fun r => (r.1, r.2.1.holding bd, r.2.2) := by
    by_cases tree : op = .serialize
    · subst tree
      exact operateSerializeCongr (agrees rfl)
    · exact operateCongr same tree
  rw [perform, whole, perform]
  cases image.operate o depth env op with
  | none => rfl
  | some r =>
    simp only [Option.map_some, Option.filter_some, nullCalledCongr same]
    split <;> rfl

theorem performEachCongr (same : SameBlocks o.host image.bulkdata bd) (tree : .serialize ∉ ops) :
    performEach o depth ops (image.holding bd) env =
      (performEach o depth ops image env).map fun r => (r.1, r.2.1.holding bd, r.2.2) := by
  induction ops generalizing image env with
  | nil => rfl
  | cons op ops ih =>
    have other : op ≠ .serialize := fun own => tree (own ▸ List.mem_cons_self)
    rw [performEach, performEach, performCongr same fun own => absurd own other]
    rcases performed : image.perform o depth env op with _ | ⟨ok, next, mid⟩
    · rfl
    · have kept : SameBlocks o.host next.bulkdata bd := by
        rw [performBulkdata performed]
        exact same
      simp only [Option.map_some]
      split
      · exact ih kept fun member => tree (List.mem_cons_of_mem _ member)
      · rfl

theorem operationsCongr (same : SameBlocks o.host image.bulkdata bd)
    (agrees : Inodes.Agrees (serializeConfig o image.bulkdata) (serializeConfig o bd) image.inodes) :
    performEach o depth (operations image.options) (image.holding bd) env =
      (performEach o depth (operations image.options) image env).map fun r => (r.1, r.2.1.holding bd, r.2.2) := by
  rw [operations, performEach, performEach, performCongr same fun _ => agrees]
  rcases performed : image.perform o depth env .serialize with _ | ⟨ok, next, mid⟩
  · rfl
  · have kept : SameBlocks o.host next.bulkdata bd := by
      rw [performBulkdata performed]
      exact same
    simp only [Option.map_some, beq_self_eq_true, Bool.or_true, if_true]
    exact performEachCongr kept (writesTree image.options)

theorem flagCongr (description : String) : (image.holding bd).flagError description env =
    ((image.flagError description env).1.holding bd.abort, (image.flagError description env).2) := by
  obtain ⟨_, _, _, message, _⟩ := image
  cases message <;> rfl

/- Only an abort of the bulk data can come between. -/
theorem concludeCongr (success : Bool) : ∃ bd', (image.holding bd).conclude success env =
    ((image.conclude success env).1, (image.conclude success env).2.1.holding bd', (image.conclude success env).2.2) := by
  cases success with
  | true => exact ⟨bd, rfl⟩
  | false =>
    refine ⟨bd.abort, ?_⟩
    simp only [conclude, flagCongr, Bool.false_eq_true, if_false]
    rfl

theorem padCongr (success : Bool) : ∃ bd', (image.holding bd).padAndConclude o success env =
    ((image.padAndConclude o success env).1, (image.padAndConclude o success env).2.1.holding bd',
      (image.padAndConclude o success env).2.2) := by
  have options : (image.holding bd).options = image.options := rfl
  rw [padAndConclude, padAndConclude, options]
  split
  · exact ⟨bd, rfl⟩
  · exact concludeCongr success

theorem finalizeCongr (done : image.bulkdata.Done) (done' : bd.Done) (same : SameBlocks o.host image.bulkdata bd)
    (agrees : Inodes.Agrees (serializeConfig o image.bulkdata) (serializeConfig o bd) image.inodes)
    {state : ImageState} (ran : image.finalize o depth env = some (state, next, after)) :
    ∃ bd', (image.holding bd).finalize o depth env = some (state, next.holding bd', after) := by
  by_cases building : image.state = .building
  · by_cases rooted : image.inodes.root.isSome
    · have whole := @finalizeDone (image.holding bd) building rooted done' o depth env
      rw [finalizeDone building rooted done] at ran
      obtain ⟨⟨success, mid, env'⟩, performed, ended⟩ := Option.map_eq_some_iff.mp ran
      have options : (image.holding bd).options = image.options := rfl
      rw [options, operationsCongr same agrees, performed] at whole
      obtain ⟨bd', concluded⟩ := @padCongr o mid bd env' success
      refine ⟨bd', ?_⟩
      simp only [Option.map_some] at whole ended
      rw [whole, concluded, ended]
    · have none : image.inodes.root.isNone = true := by simpa using rooted
      have building' : (image.holding bd).state = .building := building
      have none' : (image.holding bd).inodes.root.isNone = true := none
      rw [finalize, if_neg (not_not.mpr building), if_pos none] at ran
      obtain ⟨bd', concluded⟩ := @concludeCongr (image.flagError "No root directory set" env).1 bd.abort
        (image.flagError "No root directory set" env).2 false
      refine ⟨bd', ?_⟩
      rw [finalize, if_neg (not_not.mpr building'), if_pos none', flagCongr]
      dsimp only at ran ⊢
      rw [concluded, Option.some.inj ran]
  · have isOver : (image.holding bd).state ≠ .building := building
    rw [finalizeOver building] at ran
    cases ran
    exact ⟨bd, finalizeOver isOver o depth env⟩

end Assembly

/-! ### The bulk data of two runs -/

namespace Image
variable {s s' : Image} {p q : Plan} {r : Rule} {size n first : Nat} {item : Nat → Item} {fragments : FragmentsOption}
  {data : Bytes} {o : FinalizeConfig} {host : Bytes.Host}

/- What one run realizes of two plans, every run realizes. -/
theorem Realizes.transfer (one : Realizes s p) (two : Realizes s q) (other : Realizes s' p) : Realizes s' q where
  size := other.size.trans (one.size.symm.trans two.size)
  written := other.written.trans (one.written.symm.trans two.written)
  places := other.places.trans (one.places.symm.trans two.places)
  fragments := other.fragments.trans (one.fragments.symm.trans two.fragments)

theorem Realizes.sameBlocks (one : Realizes s p) (other : Realizes s' p) : Assembly.SameBlocks host s.bd s'.bd := by
  have fragments := other.fragments.trans one.fragments.symm
  have count : s'.bd.fragmentBlockCount = s.bd.fragmentBlockCount := by
    simpa using congrArg List.length fragments
  refine ⟨count, ?_⟩
  rw [Assembly.fragmentEntries, Assembly.fragmentEntries, count]
  rw [count] at fragments
  refine List.map_congr_left fun f member => ?_
  have same := List.map_inj_left.mp fragments f member
  have found : (s.bd.fragmentBlock f).dst.extent ∈ p.fragments.map some := by
    rw [← one.fragments]
    exact List.mem_map_of_mem member
  obtain ⟨extent, _, own⟩ := List.mem_map.mp found
  obtain ⟨offset, size, compressed⟩ := extentFields own.symm
  obtain ⟨offset', size', compressed'⟩ := extentFields (same.trans own.symm)
  rw [Assembly.fragmentEntry, Assembly.fragmentEntry, offset, size, compressed, offset', size', compressed']

theorem standsKind (stands : Inodes.Stands fragments r.blockSize data item n first) {c : Nat}
    (member : c ∈ (Inodes.fileInode fragments r.blockSize data first).blocks) : c < n ∧ (item c).kind = .fullBlock := by
  obtain ⟨blocks, inside, _⟩ := stands
  have listed : item c ∈ Inodes.blockItems r.blockSize data (Inodes.slicing fragments r.blockSize data.length).1 := by
    rw [blocks]
    exact List.mem_map_of_mem member
  obtain ⟨_, _, same⟩ := List.mem_map.mp listed
  have range := List.mem_range'_1.mp member
  exact ⟨by omega, by rw [← same]⟩

theorem Realizes.samePlaces (one : Realizes s (Plan.upTo r size item n)) (other : Realizes s' (Plan.upTo r size item n))
    (stands : Inodes.Stands fragments r.blockSize data item n first) :
    Inodes.SamePlaces (Assembly.serializeConfig o s.bd) (Assembly.serializeConfig o s'.bd)
      (Inodes.fileInode fragments r.blockSize data first) where
  blocks c member := by
    obtain ⟨inside, full⟩ := standsKind stands member
    obtain ⟨offset, size, compressed⟩ := one.block inside full
    obtain ⟨offset', size', compressed'⟩ := other.block inside full
    simp only [Assembly.serializeConfig, offset, size, compressed, offset', size', compressed']
  tail c own := by
    simp only [Inodes.fileInode] at own
    split at own
    · cases own
    · rename_i some
      obtain rfl := Option.some.inj own
      obtain ⟨inside, item⟩ := stands.tail some
      have piece := congrArg Item.kind item
      obtain ⟨fragment, offset⟩ := one.piece inside piece
      obtain ⟨fragment', offset'⟩ := other.piece inside piece
      simp only [Assembly.serializeConfig, fragment, offset, fragment', offset']

end Image

namespace Assembly
open Image

section
variable {o : FinalizeConfig} {host : Bytes.Host} {image image' next : Assembly} {env env' after : Env} {s s' : Session}
  {trace trace' : List (Event Session ((Call × Bool) ⊕ Label))} {depth : Nat} {state : ImageState}

def chain (config : BuilderConfig) (calls : List Call) : List Item :=
  (Builder.replay config calls).items ++ [⟨.closingPiece, ⟨[], 0, 0⟩⟩]

/- What the threads come to depends on the calls alone. -/
theorem Prepared.settled (prepared : Prepared host image env trace s) (granted : Session.Granted trace)
    (buffered : ∀ e ∈ trace, Session.Buffered image.threadConfig e) :
    image.bulkdata.Done ∧ image.inodes = (Builder.replay image.builderConfig (Session.callsOf trace)).inodes ∧
      s.image.Realizes (Plan.sequential
        (image.threadConfig.rule (fun _ => true) image.options.dataCompression image.options.fragmentCompression)
        image.headSize (chain image.builderConfig (Session.callsOf trace))) := by
  obtain ⟨start, run⟩ := prepared.run
  have later : image.threadConfig.later ≠ [] := by simp [threadConfig, operations]
  obtain ⟨events, calls, b, apart⟩ := Session.apartRun later run prepared.calm
  obtain ⟨done, realizes⟩ := apart.begun.realizes apart.image (apart.buffered buffered) prepared.reached
  obtain ⟨items, listed, member, last⟩ := apart.gathered (apart.begun.opened _ prepared.reached).2
  have replayed := Session.runReplayed later run prepared.calm granted
  have closed : Image.submitted (labels events) = chain image.builderConfig (Session.callsOf trace) := by
    rw [chain, ← replayed.items, ← items]
    exact Session.piecesClosed listed member last
  refine ⟨?_, prepared.tree.trans replayed.inodes, closed ▸ realizes⟩
  rw [prepared.bulkdata]
  refine ⟨done, (apart.begun.opened _ prepared.reached).2, ?_⟩
  have empty := apart.begun.sound.queuesEmpty done
  simp [Bulkdata.popNext, Bulkdata.pop, empty]

/- Two images from the same calls are finished alike: the same is returned, and the same
bytes are written to the same places, whatever the threads did before. -/
theorem imageReproducible (prepared : Prepared o.host image env trace s) (prepared' : Prepared o.host image' env' trace' s')
    (calls : Session.callsOf trace' = Session.callsOf trace) (granted : Session.Granted trace)
    (granted' : Session.Granted trace') (buffered : ∀ e ∈ trace, Session.Buffered image.threadConfig e)
    (buffered' : ∀ e ∈ trace', Session.Buffered image'.threadConfig e) (positive : 0 < image.options.blockSize)
    (same : image' = {image with inodes := image'.inodes, bulkdata := image'.bulkdata})
    (fare : env'.mallocs = env.mallocs ∧ env'.pwrites = env.pwrites)
    (ran : image.finalize o depth env = some (state, next, after)) :
    ∃ bd, image'.finalize o depth env' = some (state, {next with bulkdata := bd}, after) := by
  obtain ⟨done, tree, realizes⟩ := prepared.settled granted buffered
  obtain ⟨done', tree', realizes'⟩ := prepared'.settled granted' buffered'
  have config : image'.builderConfig = image.builderConfig := by
    rw [same]
    rfl
  have rule : image'.threadConfig.rule (fun _ => true) image'.options.dataCompression
      image'.options.fragmentCompression = image.threadConfig.rule (fun _ => true) image.options.dataCompression
        image.options.fragmentCompression := by
    rw [same]
    rfl
  have head : image'.headSize = image.headSize := by
    rw [same]
    rfl
  rw [rule, head, config, calls] at realizes'
  have inodes : image'.inodes = image.inodes := by rw [tree', tree, config, calls]
  have holds : image' = image.holding image'.bulkdata := by
    rw [inodes] at same
    exact same
  have alike : env' = env := by
    have size := prepared'.size.trans (realizes'.size.trans (realizes.size.symm.trans prepared.size.symm))
    have written := prepared'.written.trans (realizes'.written.trans (realizes.written.symm.trans prepared.written.symm))
    cases env
    cases env'
    simp only [Env.mk.injEq] at fare size written ⊢
    exact ⟨size, written, fare⟩
  obtain ⟨start, run⟩ := prepared.run
  have regulars := Session.runRegulars run granted
  have agrees : Inodes.Agrees (serializeConfig o image.bulkdata) (serializeConfig o image'.bulkdata) image.inodes := by
    refine ⟨rfl, rfl, fun i reg body => ?_⟩
    rw [prepared.tree] at body
    obtain ⟨data, created⟩ := regulars.created i reg body
    obtain ⟨_, r, item, n, first, whole, rfl, planned, _, _, stands, own⟩ := prepared.filed positive created
    obtain rfl := whole buffered
    obtain rfl : Inodes.fileInode image.options.fragments image.options.blockSize data first = reg := by
      rw [← prepared.tree, own] at body
      exact InodeBody.regular.inj body
    rw [prepared.bulkdata, prepared'.bulkdata]
    exact planned.samePlaces (realizes.transfer planned realizes') stands
  rw [alike, holds]
  refine finalizeCongr done done' ?_ agrees ran
  rw [prepared.bulkdata, prepared'.bulkdata]
  exact realizes.sameBlocks realizes'

end

section
open Image

/- The tails are compressed before the block in front of them is written. -/
theorem filedBeside (o : ImageConfig) (size : o.blockSize = 4) (plain : o.compress = fun _ _ => none) :
    ∃ (trace : List (Event Image Label)) (s : Image), FiledDone o trace s := by
  obtain ⟨blockSize, compress, later, padding⟩ := o
  dsimp only at size plain
  subst size plain
  have nobody (t : Nat) : ((filedStart.goto 1 .opening).goto 1 .locking).pc t ≠ .waiting := by
    simp only [goto, Function.update_apply, filedStart, Image.init]
    split <;> simp
  have spawned : Run (Step ⟨4, fun _ _ => none, later, padding⟩) filedStart _ _ :=
    .move (.move .start ⟨rfl, .spawn (t := 1) ⟨rfl, rfl⟩ rfl (by decide)⟩) ⟨rfl, .opened (t := 1) rfl⟩
  have needed := ((spawned.move ⟨rfl, .enter ⟨rfl, rfl⟩ rfl⟩).move ⟨rfl, .rootFound rfl rfl⟩).move ⟨rfl, .sealNeeded rfl rfl rfl⟩
  have sealed := needed.move ⟨rfl, .closingQueued rfl rfl (.idle nobody) (.idle nobody)⟩
  have started := sealed.move ⟨rfl, .sealedAgain rfl rfl rfl⟩
  -- the worker has the block, thread 0 the tails
  have popped₀ := ((started.move ⟨rfl, .locked (t := 1) rfl rfl⟩).move ⟨rfl, .pop (t := 1) rfl rfl⟩).move
    ⟨rfl, @Move.released _ _ 1 _ _ true _ _ _ rfl rfl⟩
  have popped₁ := ((popped₀.move ⟨rfl, .locked (t := 0) rfl rfl⟩).move ⟨rfl, .pop (t := 0) rfl rfl⟩).move
    ⟨rfl, @Move.released _ _ 0 _ _ true _ _ _ rfl rfl⟩
  have read₀ := popped₁.move ⟨rfl, .read (t := 1) rfl rfl rfl⟩
  have deduplicated₀ := (read₀.move ⟨rfl, .pop (t := 1) rfl rfl⟩).move ⟨rfl, @Move.again _ _ 1 _ _ true _ _ rfl rfl⟩
  have assigned₀ := (deduplicated₀.move ⟨rfl, .pop (t := 1) rfl rfl⟩).move
    ⟨rfl, @Move.again _ _ 1 _ _ true _ _ rfl rfl⟩
  have compressing₀ := (assigned₀.move ⟨rfl, .pop (t := 1) rfl rfl⟩).move
    ⟨rfl, @Move.released _ _ 1 _ _ true _ _ _ rfl rfl⟩
  have read₁ := compressing₀.move ⟨rfl, .read (t := 0) rfl rfl rfl⟩
  have deduplicated₁ := (read₁.move ⟨rfl, .pop (t := 0) rfl rfl⟩).move ⟨rfl, @Move.again _ _ 0 _ _ true _ _ rfl rfl⟩
  have assigned₁ := (deduplicated₁.move ⟨rfl, .pop (t := 0) rfl rfl⟩).move
    ⟨rfl, @Move.again _ _ 0 _ _ true _ _ rfl rfl⟩
  have read₂ := ((assigned₁.move ⟨rfl, .pop (t := 0) rfl rfl⟩).move
    ⟨rfl, @Move.released _ _ 0 _ _ true _ _ _ rfl rfl⟩).move ⟨rfl, .read (t := 0) rfl rfl rfl⟩
  have deduplicated₂ := (read₂.move ⟨rfl, .pop (t := 0) rfl rfl⟩).move ⟨rfl, @Move.again _ _ 0 _ _ true _ _ rfl rfl⟩
  have assigned₂ := (deduplicated₂.move ⟨rfl, .pop (t := 0) rfl rfl⟩).move
    ⟨rfl, @Move.again _ _ 0 _ _ true _ _ rfl rfl⟩
  have compressed₂ := ((assigned₂.move ⟨rfl, .pop (t := 0) rfl rfl⟩).move
    ⟨rfl, @Move.released _ _ 0 _ _ true _ _ _ rfl rfl⟩).move ⟨rfl, @Move.compressed _ _ 0 _ true _ rfl rfl rfl⟩
  have read₃ := (compressed₂.move ⟨rfl, .pop (t := 0) rfl rfl⟩).move ⟨rfl, @Move.again _ _ 0 _ _ true _ _ rfl rfl⟩
  have deduplicated₃ := (read₃.move ⟨rfl, .pop (t := 0) rfl rfl⟩).move ⟨rfl, @Move.again _ _ 0 _ _ true _ _ rfl rfl⟩
  have assigned₃ := (deduplicated₃.move ⟨rfl, .pop (t := 0) rfl rfl⟩).move
    ⟨rfl, @Move.again _ _ 0 _ _ true _ _ rfl rfl⟩
  have compressed₃ := ((assigned₃.move ⟨rfl, .pop (t := 0) rfl rfl⟩).move
    ⟨rfl, @Move.released _ _ 0 _ _ true _ _ _ rfl rfl⟩).move ⟨rfl, @Move.compressed _ _ 0 _ true _ rfl rfl rfl⟩
  have waiting := compressed₃.move ⟨rfl, .wait (t := 0) rfl rfl (by decide)⟩
  -- the worker writes what thread 0 has compressed before it
  have compressed₀ := waiting.move ⟨rfl, @Move.compressed _ _ 1 _ true _ rfl rfl rfl⟩
  have written₀ := ((compressed₀.move ⟨rfl, .pop (t := 1) rfl rfl⟩).move
    ⟨rfl, @Move.released _ _ 1 _ _ true _ _ _ rfl rfl⟩).move ⟨rfl, .written (t := 1) rfl rfl rfl⟩
  have finished₁ := (written₀.move ⟨rfl, .pop (t := 1) rfl rfl⟩).move ⟨rfl, @Move.again _ _ 1 _ _ true _ _ rfl rfl⟩
  have written₂ := ((finished₁.move ⟨rfl, .pop (t := 1) rfl rfl⟩).move
    ⟨rfl, @Move.released _ _ 1 _ _ true _ _ _ rfl rfl⟩).move ⟨rfl, .written (t := 1) rfl rfl rfl⟩
  have written₃ := ((written₂.move ⟨rfl, .pop (t := 1) rfl rfl⟩).move
    ⟨rfl, @Move.released _ _ 1 _ _ true _ _ _ rfl rfl⟩).move ⟨rfl, .written (t := 1) rfl rfl rfl⟩
  have left := ((written₃.move ⟨rfl, .leave (t := 1) rfl rfl (by decide)⟩).move ⟨rfl, .locked (t := 0) rfl rfl⟩).move
    ⟨rfl, .leave (t := 0) rfl rfl (by decide)⟩
  refine ⟨_, _, left.move ⟨rfl, .processed rfl rfl⟩, ?_, rfl,
    filedSame (fun c => ?_) (fun f => ?_) (fun q => by cases q <;> rfl) rfl, rfl, rfl⟩
  · simp [goto]
  · rcases c with _ | _ | _ | _ | c <;> rfl
  · rcases f with _ | _ | f <;> rfl

/- The files, whichever threads handled their blocks and in which order. -/
theorem filedReproduced : ∃ (state : ImageState) (next : Assembly) (after : Env) (bd : Bulkdata),
    after.written = filedLog ++ after.written.drop 3 ∧
      filedImage.finalize ⟨.little, 0, true⟩ 2 (willing 115 filedLog) = some (state, {next with bulkdata := bd}, after) := by
  obtain ⟨_, _, alone⟩ := filedAlone filedImage.threadConfig rfl rfl
  obtain ⟨_, _, beside⟩ := filedBeside filedImage.threadConfig rfl rfl
  obtain ⟨trace, b, prepared, _, _, calls⟩ := alone.prepared
  obtain ⟨trace', b', prepared', _, _, calls'⟩ := beside.prepared
  have granted {trace : List (Event Session ((Call × Bool) ⊕ Label))}
      (calls : (labels trace).filterMap Session.callLabel = filedCalls.map fun c => (c, true)) : Session.Granted trace := by
    intro x member
    rw [calls] at member
    obtain ⟨c, _, rfl⟩ := List.mem_map.mp member
    rfl
  have never (src : Bytes) : filedImage.threadConfig.compress false src ≠ some [] := (Option.some_ne_none []).symm
  obtain ⟨_, run⟩ := prepared.run
  obtain ⟨_, run'⟩ := prepared'.run
  have ran : ((filedImage.finalize ⟨.little, 0, true⟩ 2 (willing 115 filedLog)).map fun result =>
      decide (result.2.2.written = filedLog ++ result.2.2.written.drop 3)) = some true := by decide
  obtain ⟨⟨state, next, after⟩, ran, front⟩ := Option.map_eq_some_iff.mp ran
  obtain ⟨bd, ran'⟩ := imageReproducible prepared prepared' (by rw [Session.callsOf, Session.callsOf, calls, calls'])
    (granted calls) (granted calls') (Session.bufferedUnlessNothing never run) (Session.bufferedUnlessNothing never run')
    (by decide) rfl ⟨rfl, rfl⟩ ran
  exact ⟨state, next, after, bd, of_decide_eq_true front, ran'⟩

end

end Assembly
end Libsqfs
