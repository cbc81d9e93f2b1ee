import ContentCoding.Proofs.Transcript
import ContentCoding.Stored.Decoder
import ContentCoding.Stored.Encoder

/-!
# What a stored encoder writes

The streams of stored blocks meet what is assumed of engines. Every transcript that has ended is
one stream, and reading that stream gives back the input.

* `read_stream`: a stream of blocks reads back.
* `read_part`: and each part of it reads as part of its content.
* `Kept`: what is written is the front of a stream, and the rest of the input is held.
* `keeps_transcript`: every transcript keeps to that.
* `faithful_start`: **a transcript that has ended reads back as what was taken.**
* `takesInput_start`: which pieces are taken, and which are refused.
* `flushes_start`: **what was flushed can be decoded**, before the stream has ended.
-/

namespace ContentCoding.Stored

/-- **A sound reading** of some content: nothing was wrong so far, and what was read is the
beginning of that content. -/
def Reading.Sound (r : Reading) (content : Octets) : Prop :=
  r.progress ≠ .corrupt ∧ r.content <+: content

theorem Reading.sound_unfinished {part content : Octets} (h : part <+: content) :
    (⟨part, .unfinished⟩ : Reading).Sound content :=
  ⟨Progress.noConfusion, h⟩

namespace Layout

variable {l : Layout} {bs : List Octets} {content : Octets}

/-- A block behind its header. -/
def framed (l : Layout) (b : Octets) : Octets := l.block b.length ++ b

/-- Blocks that the layout has headers for. None is empty. -/
def Fits (l : Layout) (bs : List Octets) : Prop := ∀ b ∈ bs, 0 < b.length ∧ b.length ≤ l.maxBlock

/-- **The stream** of some blocks. -/
def stream (l : Layout) (bs : List Octets) : Octets :=
  l.preamble ++ (bs.flatMap l.framed ++ (l.ending ++ l.trailer (.of bs.flatten)))

/-- A header is not empty, since it tells a block from the end. -/
theorem block_ne_nil {n : Nat} (h0 : 0 < n) (hn : n ≤ l.maxBlock) : l.block n ≠ [] := by
  intro h
  -- were it empty, the ending would scan as a block and as the end at once
  have hb := l.scan_block h0 hn l.ending
  have he := l.scan_ending []
  rw [h, List.nil_append] at hb
  rw [List.append_nil, hb] at he
  cases he

theorem readBlocks_framed {b : Octets} (h0 : 0 < b.length) (hb : b.length ≤ l.maxBlock)
    (rest : Octets) :
    l.readBlocks content (l.framed b ++ rest) = l.readBlocks (content ++ b) rest := by
  have hne := List.length_pos_iff.2 (l.block_ne_nil h0 hb)
  have hlt : (b ++ rest).length < (l.block b.length ++ (b ++ rest)).length := by
    simp only [List.length_append]
    omega
  have hle : ¬ (b ++ rest).length < b.length := by
    rw [List.length_append]
    omega
  rw [framed, List.append_assoc, readBlocks]
  simp only [l.scan_block h0 hb (b ++ rest), if_neg hle, dif_pos hlt, Bool.false_eq_true,
    ↓reduceIte, List.take_left, List.drop_left]

theorem readBlocks_ending :
    l.readBlocks content (l.ending ++ l.trailer (.of content)) = ⟨content, .ended⟩ := by
  rw [readBlocks]
  simp [l.scan_ending, readTrailer]

/-- Blocks are read one by one, whatever follows them. -/
theorem readBlocks_blocks (h : l.Fits bs) (content rest : Octets) :
    l.readBlocks content (bs.flatMap l.framed ++ rest) =
      l.readBlocks (content ++ bs.flatten) rest := by
  induction bs generalizing content with
  | nil => rw [List.flatten_nil, List.append_nil, List.flatMap_nil, List.nil_append]
  | cons b bs ih =>
    have hb := h b (List.mem_cons_self ..)
    have hbs : l.Fits bs := fun x hx => h x (List.mem_cons_of_mem _ hx)
    rw [List.flatMap_cons, List.append_assoc, readBlocks_framed hb.1 hb.2, ih hbs,
      List.flatten_cons, List.append_assoc]

/-- Where nothing is left to read, the content so far is all. -/
theorem readBlocks_nil (hs : l.scan [] = .short) (content : Octets) :
    l.readBlocks content [] = ⟨content, .unfinished⟩ := by
  rw [readBlocks, hs]

/-- **A stream reads back** as the content of its blocks, and ends where it does. -/
theorem read_stream (h : l.Fits bs) : l.read (l.stream bs) = ⟨bs.flatten, .ended⟩ := by
  have hp : l.preamble.isPrefixOf (l.stream bs) = true :=
    List.isPrefixOf_iff_prefix.2 (List.prefix_append _ _)
  rw [read, if_pos hp, stream, List.drop_left, readBlocks_blocks h, List.nil_append,
    readBlocks_ending]

/-- **The front of a stream reads back** as the content of its blocks, and is not its end. -/
theorem read_front (hs : l.scan [] = .short) (h : l.Fits bs) :
    l.read (l.preamble ++ bs.flatMap l.framed) = ⟨bs.flatten, .unfinished⟩ := by
  have hp : l.preamble.isPrefixOf (l.preamble ++ bs.flatMap l.framed) = true :=
    List.isPrefixOf_iff_prefix.2 (List.prefix_append _ _)
  have hb := readBlocks_blocks h [] []
  rw [List.append_nil, List.nil_append, readBlocks_nil hs] at hb
  rw [read, if_pos hp, List.drop_left, hb]

/-- A prefix of two parts ends within the first one, or behind it. -/
theorem prefix_append_cases {p a b : Octets} (h : p <+: a ++ b) :
    (p <+: a ∧ p ≠ a) ∨ ∃ q, p = a ++ q ∧ q <+: b := by
  obtain ⟨rest, h⟩ := h
  rcases List.append_eq_append_iff.1 h with ⟨gap, rfl, -⟩ | ⟨gap, rfl, rfl⟩
  · by_cases hg : gap = []
    · exact .inr ⟨[], by simp [hg], List.nil_prefix⟩
    · exact .inl ⟨List.prefix_append .., by simpa using Ne.symm hg⟩
  · exact .inr ⟨gap, rfl, List.prefix_append ..⟩

/-- Part of what follows the last block is known to be a part. -/
theorem readTrailer_part {p : Octets} (hp : p <+: l.trailer (.of content)) :
    (l.readTrailer content p).Sound content := by
  by_cases hall : p = l.trailer (.of content)
  · have hread : l.readTrailer content p = ⟨content, .ended⟩ := if_pos hall
    rw [hread]
    exact ⟨Progress.noConfusion, List.prefix_rfl⟩
  · have hread : l.readTrailer content p = ⟨content, .unfinished⟩ :=
      (if_neg hall).trans (if_pos (List.isPrefixOf_iff_prefix.2 hp))
    rw [hread]
    exact Reading.sound_unfinished List.prefix_rfl

/-- Part of some blocks, and of what follows them, reads as part of their content. -/
theorem readBlocks_part (h : l.Fits bs) {p : Octets}
    (hp : p <+: bs.flatMap l.framed ++ (l.ending ++ l.trailer (.of (content ++ bs.flatten)))) :
    (l.readBlocks content p).Sound (content ++ bs.flatten) := by
  induction bs generalizing content p with
  | nil =>
    rw [List.flatMap_nil, List.nil_append, List.flatten_nil, List.append_nil] at hp
    rw [List.flatten_nil, List.append_nil, readBlocks]
    rcases prefix_append_cases hp with ⟨hpart, hne⟩ | ⟨q, rfl, hq⟩
    · rw [l.short_ending hpart hne]
      exact Reading.sound_unfinished List.prefix_rfl
    · simpa [l.scan_ending] using readTrailer_part hq
  | cons b bs ih =>
    obtain ⟨h0, hmax⟩ := h b (List.mem_cons_self ..)
    rw [List.flatMap_cons, List.append_assoc] at hp
    rcases prefix_append_cases hp with ⟨hpart, hne⟩ | ⟨q, rfl, hq⟩
    · -- the block is not complete: its header is cut off, or its content is
      rw [readBlocks]
      rcases prefix_append_cases (a := l.block b.length) hpart with ⟨hhead, hshort⟩ | ⟨q, rfl, hq⟩
      · rw [l.short_block h0 hmax hhead hshort]
        exact Reading.sound_unfinished (List.prefix_append ..)
      · have hlt : q.length < b.length :=
          length_lt_of_part hq fun he => hne (by rw [he, framed])
        simp only [l.scan_block h0 hmax, if_pos hlt, List.take_of_length_le (Nat.le_of_lt hlt)]
        refine Reading.sound_unfinished ?_
        rw [List.prefix_append_right_inj, List.flatten_cons]
        exact hq.trans (List.prefix_append ..)
    · rw [readBlocks_framed h0 hmax, List.flatten_cons, ← List.append_assoc]
      rw [List.flatten_cons, ← List.append_assoc content] at hq
      exact ih (fun x hx => h x (List.mem_cons_of_mem _ hx)) hq

/-- **Every part of a stream reads as part of its content.** -/
theorem read_part (h : l.Fits bs) {p : Octets} (hp : p <+: l.stream bs) :
    (l.read p).Sound bs.flatten := by
  unfold read
  rcases prefix_append_cases hp with ⟨hpart, hne⟩ | ⟨q, rfl, hq⟩
  · have hno : ¬ l.preamble.isPrefixOf p = true := fun hle =>
      hne (hpart.eq_of_length_le (List.isPrefixOf_iff_prefix.1 hle).length_le)
    rw [if_neg hno, if_pos (List.isPrefixOf_iff_prefix.2 hpart)]
    exact Reading.sound_unfinished List.nil_prefix
  · rw [if_pos (List.isPrefixOf_iff_prefix.2 (List.prefix_append ..)), List.drop_left]
    have hread : (l.readBlocks [] q).Sound ([] ++ bs.flatten) := readBlocks_part h hq
    rwa [List.nil_append] at hread

/-- Of nothing nothing is read. -/
theorem read_nil (hs : l.scan [] = .short) : l.read [] = ⟨[], .unfinished⟩ := by
  unfold read
  split
  · rw [List.drop_nil, readBlocks_nil hs]
  · rfl

end Layout

namespace Encoder

variable {c : Coding} {e : Encoder} {pieces : List Octets} {given input : Octets} {room : Nat}

theorem blockSize_le_maxBlock (c : Coding) : blockSize < (Stored.layout c).maxBlock := by
  cases c <;> decide

/-- **What an encoder keeps to** while its stream has not ended: what was given out, with what is
queued, is the front of a stream, and the rest of the input is held. -/
structure Kept (c : Coding) (pieces : List Octets) (given : Octets) (e : Encoder) : Prop where
  coding : e.coding = c
  going : e.stage ≠ .ended
  small : e.held.length ≤ blockSize
  checksum : e.checksum = .of pieces.flatten
  blocks : ∃ bs, (Stored.layout c).Fits bs ∧ bs.flatten ++ e.held = pieces.flatten ∧
    given ++ (e.queue ++ e.opening) =
      (Stored.layout c).preamble ++ bs.flatMap (Stored.layout c).framed

theorem kept_start (c : Coding) : (start c).Kept c [] [] :=
  ⟨rfl, nofun, Nat.zero_le _, rfl, [], nofun, rfl, by simp [start, opening, layout]⟩

/-- Once the stream has begun, only its blocks are queued. -/
theorem begun_going (h : e.stage ≠ .ended) :
    e.begun.stage = .opened ∧ e.begun.queue = e.queue ++ e.opening ∧ e.begun.held = e.held ∧
      e.begun.coding = e.coding ∧ e.begun.checksum = e.checksum := by
  cases hs : e.stage with
  | fresh => simp [begun, opening, hs]
  | opened => simp [begun, opening, hs]
  | ended => exact absurd hs h

theorem opening_of_opened (h : e.stage = .opened) : e.opening = [] := by
  simp [opening, h]

theorem kept_begun (h : e.Kept c pieces given) : e.begun.Kept c pieces given := by
  obtain ⟨hs, hq, hh, hc, hk⟩ := begun_going h.going
  obtain ⟨bs, hfit, hin, hout⟩ := h.blocks
  refine ⟨hc.trans h.coding, by simp [hs], hh ▸ h.small, hk.trans h.checksum, bs, hfit, ?_, ?_⟩
  · rw [hh, hin]
  · rw [opening_of_opened hs, List.append_nil, hq, hout]

/-- Input that is taken is held. -/
theorem kept_accept (h : e.Kept c pieces given) (hi : e.held.length + input.length ≤ blockSize) :
    (e.accept input).Kept c (pieces ++ [input]) given := by
  obtain ⟨bs, hfit, hin, hout⟩ := h.blocks
  have hflat : (pieces ++ [input]).flatten = pieces.flatten ++ input := by
    rw [List.flatten_append, List.flatten_singleton]
  refine ⟨h.coding, h.going, ?_, ?_, bs, hfit, ?_, hout⟩
  · rw [accept, List.length_append]
    exact hi
  · change e.checksum.absorb input = .of (pieces ++ [input]).flatten
    rw [h.checksum, hflat, Checksum.of, Checksum.absorb_append, Checksum.of]
  · rw [hflat, ← hin, accept, List.append_assoc]

/-- The input held may be written as a block at any time. -/
theorem kept_sealed (h : e.Kept c pieces given) :
    e.sealed.Kept c pieces given ∧ e.sealed.held = [] ∧
      (e.sealed.stage = .fresh → e.stage = .fresh) := by
  have hgo : e.sealed = if e.held = [] then e
      else { e.begun with queue := e.begun.queue ++ e.block, held := [] } := by
    unfold sealed
    cases hs : e.stage with
    | ended => exact absurd hs h.going
    | fresh | opened => rfl
  by_cases hh : e.held = []
  · rw [hgo, if_pos hh]
    exact ⟨h, hh, id⟩
  · rw [hgo, if_neg hh]
    obtain ⟨hs, hq, -, hc, hk⟩ := begun_going h.going
    obtain ⟨bs, hfit, hin, hout⟩ := h.blocks
    have hframed : e.block = (Stored.layout c).framed e.held := by
      rw [block, if_neg hh, layout, h.coding, Layout.framed]
    refine ⟨⟨hc.trans h.coding, by simp [hs], Nat.zero_le _, hk.trans h.checksum,
      bs ++ [e.held], ?_, ?_, ?_⟩, rfl, by simp [hs]⟩
    · intro b hb
      rcases List.mem_append.1 hb with hb | hb
      · exact hfit b hb
      · rw [List.mem_singleton.1 hb]
        have hmax := blockSize_le_maxBlock c
        have hsmall := h.small
        exact ⟨List.length_pos_iff.2 hh, by omega⟩
    · rw [List.flatten_append, List.flatten_singleton, List.append_nil, hin]
    · change given ++ (e.begun.queue ++ e.block ++ opening { e.begun with .. }) = _
      rw [opening_of_opened (by exact hs), hq, List.append_nil, ← List.append_assoc, hout,
        List.flatMap_append, List.flatMap_singleton, hframed, List.append_assoc]

theorem kept_flushed (h : e.Kept c pieces given) :
    e.flushed.Kept c pieces given ∧ e.flushed.held = [] ∧
      (e.flushed.stage = .fresh → e.stage = .fresh) := by
  unfold flushed
  split
  · exact kept_sealed h
  · obtain ⟨hk, hh, hs⟩ := kept_sealed (kept_begun h)
    refine ⟨hk, hh, fun hf => ?_⟩
    rw [(begun_going h.going).1] at hs
    cases hs hf

/-- What is queued may be given out at any time. -/
theorem kept_dropped (h : e.Kept c pieces given) :
    (e.dropped room).Kept c pieces (given ++ e.queue.take room) := by
  obtain ⟨bs, hfit, hin, hout⟩ := h.blocks
  refine ⟨h.coding, h.going, h.small, h.checksum, bs, hfit, hin, ?_⟩
  rw [← hout]
  change given ++ e.queue.take room ++ (e.queue.drop room ++ e.opening) = _
  rw [List.append_assoc, ← List.append_assoc (e.queue.take room), List.take_append_drop]

/-- **What is to come completes a stream** of all that was taken. -/
def Completes (c : Coding) (pieces : List Octets) (given : Octets) (e : Encoder) : Prop :=
  ∃ bs, (Stored.layout c).Fits bs ∧ bs.flatten = pieces.flatten ∧
    given ++ e.upcoming = (Stored.layout c).stream bs

theorem completes_of_kept (h : e.Kept c pieces given) : e.Completes c pieces given := by
  obtain ⟨hk, hh, hf⟩ := kept_sealed (kept_begun h)
  obtain ⟨bs, hfit, hin, hout⟩ := hk.blocks
  rw [hh, List.append_nil] at hin
  have hs : e.begun.sealed.stage = .opened := by
    cases hs : e.begun.sealed.stage with
    | opened => rfl
    | ended => exact absurd hs hk.going
    | fresh =>
      rw [(begun_going h.going).1] at hf
      cases hf hs
  rw [opening_of_opened hs, List.append_nil] at hout
  have hup : e.begun.sealed.upcoming = e.upcoming := by rw [upcoming_sealed, upcoming_begun]
  have hlast : e.begun.sealed.upcoming = e.begun.sealed.queue ++
      ((Stored.layout c).ending ++ (Stored.layout c).trailer (.of pieces.flatten)) := by
    simp [upcoming, opening, block, layout, hs, hh, hk.coding, hk.checksum]
  refine ⟨bs, hfit, hin, ?_⟩
  rw [← hup, hlast, ← List.append_assoc, hout, Layout.stream, hin, List.append_assoc]

/-- Finishing gives out what was to come. -/
theorem completes_finish (h : e.Completes c pieces given) (room : Nat) :
    (e.finish room).next.Completes c pieces (given ++ (e.finish room).written) := by
  obtain ⟨bs, hfit, hin, hout⟩ := h
  refine ⟨bs, hfit, hin, ?_⟩
  rw [List.append_assoc, finish_conserves, hout]

/-- **What an encoder keeps to** at each point of a transcript. The beginning of a stream that is
written with the first input tells whether there was any. -/
def Keeps (c : Coding) (pieces : List Octets) (given : Octets) (e : Encoder) :
    Engine.Mode → Prop
  | .taking | .amid .flush =>
    e.Kept c pieces given ∧ e.held.length < blockSize ∧
      ((Stored.layout c).opening = .withInput → (e.stage = .fresh ↔ pieces = []))
  | .amid .finish => e.Completes c pieces given
  | .ended => ∃ bs, (Stored.layout c).Fits bs ∧ bs.flatten = pieces.flatten ∧
      given = (Stored.layout c).stream bs

/-- The encoder once it is ready for input. -/
def readied (e : Encoder) : Encoder := if e.layout.opening = .withInput then e.begun else e

/-- The input that is taken at a time. -/
def bite (e : Encoder) (input : Octets) : Octets :=
  input.take (min input.length (max 1 (blockSize - e.held.length)))

/-- The encoder once a full block is written. -/
def relieved (e : Encoder) : Encoder := if blockSize ≤ e.held.length then e.sealed else e

/-- What taking input comes to. -/
theorem encode_ok {r : Intake Encoder} (he : e.encode input room = .ok r) :
    let e' := (e.readied.accept (e.readied.bite input)).relieved
    input.take r.taken = e.readied.bite input ∧ r.written = e'.queue.take room ∧
      r.next = e'.dropped room := by
  unfold encode at he
  split at he
  · cases he
  · obtain rfl := Except.ok.inj he
    exact ⟨rfl, rfl, rfl⟩

theorem kept_readied (h : e.Kept c pieces given) :
    e.readied.Kept c pieces given ∧ e.readied.held = e.held ∧
      ((Stored.layout c).opening = .withInput → e.readied.stage ≠ .fresh) := by
  unfold readied
  split
  · obtain ⟨hs, -, hh, -⟩ := begun_going h.going
    exact ⟨kept_begun h, hh, fun _ => by simp [hs]⟩
  · rename_i hno
    rw [layout, h.coding] at hno
    exact ⟨h, rfl, fun hyes => absurd hyes hno⟩

theorem kept_relieved (h : e.Kept c pieces given) :
    e.relieved.Kept c pieces given ∧ e.relieved.held.length < blockSize ∧
      (e.relieved.stage = .fresh → e.stage = .fresh) := by
  unfold relieved
  split
  · obtain ⟨hk, hh, hs⟩ := kept_sealed h
    exact ⟨hk, by rw [hh]; decide, hs⟩
  · rename_i hno
    exact ⟨h, by omega, id⟩

/-- Taking input keeps to it. -/
theorem keeps_encode {r : Intake Encoder} (h : e.Keeps c pieces given .taking)
    (he : e.encode input room = .ok r) :
    r.next.Keeps c (pieces ++ [input.take r.taken]) (given ++ r.written) .taking := by
  obtain ⟨hk, hlt, -⟩ := h
  obtain ⟨hpiece, hw, hn⟩ := encode_ok he
  obtain ⟨hk, hheld, hopen⟩ := kept_readied hk
  have hsize : e.readied.held.length + (e.readied.bite input).length ≤ blockSize := by
    rw [bite, List.length_take, hheld]
    omega
  obtain ⟨hk, hlt, hfresh⟩ := kept_relieved (kept_accept hk hsize)
  rw [hpiece, hw, hn]
  exact ⟨kept_dropped hk, hlt, fun ho => ⟨fun hf => absurd (hfresh hf) (hopen ho), by simp⟩⟩

/-- Flushing keeps to it, once there was a piece. -/
theorem keeps_flush (h : e.Keeps c pieces given .taking) (hp : pieces ≠ []) (room : Nat) :
    (e.flush room).next.Keeps c pieces (given ++ (e.flush room).written) .taking := by
  obtain ⟨hk, -, hiff⟩ := h
  obtain ⟨hk, hh, hfresh⟩ := kept_flushed hk
  have hlt : e.flushed.held.length < blockSize := by
    rw [hh]
    decide
  exact ⟨kept_dropped hk, hlt, fun ho =>
    ⟨fun hf => (hiff ho).1 (hfresh hf), fun hn => absurd hn hp⟩⟩

/-- Finishing keeps to it. -/
theorem keeps_finish (h : e.Completes c pieces given) :
    (e.finish room).next.Keeps c pieces (given ++ (e.finish room).written)
      (if (e.finish room).complete then .ended else .amid .finish) := by
  have hc := completes_finish h room
  split
  · rename_i hdone
    obtain ⟨bs, hfit, hin, hout⟩ := hc
    have hq : (e.finish room).next.upcoming = [] := List.isEmpty_iff.1 hdone
    rw [hq, List.append_nil] at hout
    exact ⟨bs, hfit, hin, hout⟩
  · exact hc

/-- **Every transcript keeps to it.** -/
theorem keeps_transcript {mode : Engine.Mode}
    (h : Engine.Transcript (start c) mode pieces given e) : e.Keeps c pieces given mode := by
  induction h with
  | start =>
    have hlt : 0 < blockSize := by decide
    exact ⟨kept_start c, hlt, fun _ => ⟨fun _ => rfl, fun _ => rfl⟩⟩
  | encode _ he ih => exact keeps_encode ih he
  | @ask mode d pieces given e o _ hm hp ho ih =>
    obtain rfl := Except.ok.inj ho
    cases d with
    | flush =>
      -- a flush may be broken off at any point, and the same is kept as between pieces
      have hk : e.Keeps c pieces given .taking := by rcases hm with rfl | rfl <;> exact ih
      have hf := keeps_flush hk (hp rfl) Engine.bufferSize
      split <;> exact hf
    | finish =>
      -- the first call to finish settles what is to come, and the later ones give it out
      have hk : e.Completes c pieces given := by
        rcases hm with rfl | rfl
        · exact completes_of_kept ih.1
        · exact ih
      exact keeps_finish hk

/-- **Stored encoders are faithful.** A transcript that has ended is one stream, and reads back as
the input that was taken. -/
theorem faithful_start : Engine.Faithful start fun coding bytes content =>
    (Stored.layout coding).read bytes = ⟨content, .ended⟩ := by
  intro coding pieces given e h
  obtain ⟨bs, hfit, hin, rfl⟩ := keeps_transcript h
  rw [Layout.read_stream hfit, hin]

section fresh

theorem begun_not_fresh : e.begun.stage ≠ .fresh := by
  cases hs : e.stage <;> simp [begun, hs]

/-- No block is written before the beginning of the stream. -/
theorem sealed_of_fresh (h : e.sealed.stage = .fresh) : e.sealed = e := by
  by_cases hh : e.held = []
  · cases hs : e.stage <;> simp [sealed, hs, hh]
  · cases hs : e.stage <;> simp [sealed, begun, hs, hh] at h

theorem readied_of_fresh (h : e.readied.stage = .fresh) : e.readied = e := by
  unfold readied at h ⊢
  split at h
  · exact absurd h begun_not_fresh
  · rename_i hno
    exact if_neg hno

theorem relieved_of_fresh (h : e.relieved.stage = .fresh) : e.relieved = e := by
  unfold relieved at h ⊢
  split at h
  · rename_i hfull
    rw [if_pos hfull, sealed_of_fresh h]
  · rename_i hno
    exact if_neg hno

theorem flushed_of_fresh (h : e.flushed.stage = .fresh) : e.flushed = e := by
  unfold flushed at h ⊢
  split at h
  · rename_i hblock
    rw [if_pos hblock, sealed_of_fresh h]
  · rw [sealed_of_fresh h] at h
    exact absurd h begun_not_fresh

/-- **Before its stream has begun** an encoder has given nothing out, and nothing waits. -/
theorem given_of_fresh {mode : Engine.Mode}
    (h : Engine.Transcript (start c) mode pieces given e) (hs : e.stage = .fresh) :
    given = [] ∧ e.queue = [] := by
  have hdropped {e : Encoder} {given : Octets} (h : given = [] ∧ e.queue = []) (room : Nat) :
      given ++ e.queue.take room = [] ∧ (e.dropped room).queue = [] := by
    simp [h.1, h.2, dropped]
  induction h with
  | start => exact ⟨rfl, rfl⟩
  | @encode _ _ input e _ _ he ih =>
    obtain ⟨-, hw, hn⟩ := encode_ok he
    let accepted := e.readied.accept (e.readied.bite input)
    have hrelieved : accepted.relieved = accepted := relieved_of_fresh (by rw [hn] at hs; exact hs)
    have hopened : e.readied.stage = .fresh := by
      rw [hn, hrelieved] at hs
      exact hs
    have hreadied := readied_of_fresh hopened
    have hqueue : accepted.queue = e.queue := by
      change e.readied.queue = e.queue
      rw [hreadied]
    obtain ⟨hg, hq⟩ := ih (hreadied ▸ hopened)
    rw [hw, hn, hrelieved]
    exact hdropped ⟨hg, hqueue.trans hq⟩ _
  | @ask _ d _ _ e _ _ _ _ ho ih =>
    obtain rfl := Except.ok.inj ho
    cases d with
    | finish => cases hs
    | flush =>
      have hflushed : e.flushed = e := flushed_of_fresh hs
      have hopened : e.stage = .fresh := by
        rw [← hflushed]
        exact hs
      obtain ⟨hg, hq⟩ := ih hopened
      exact hdropped ⟨hg, (congrArg queue hflushed).trans hq⟩ _

end fresh

/-- **The content that octets decode to**, all of it, whether the stream has ended or not. -/
def Decodes (coding : Coding) (bytes content : Octets) : Prop :=
  ∃ p, p ≠ .corrupt ∧ (Stored.layout coding).read bytes = ⟨content, p⟩

/-- Where all input is in blocks, and nothing waits, what was given out reads as the input. -/
theorem read_of_kept (h : e.Kept c pieces given) (hh : e.held = []) (hq : e.queue = [])
    (hfresh : e.stage = .fresh → given = []) :
    (Stored.layout c).read given = ⟨pieces.flatten, .unfinished⟩ := by
  obtain ⟨bs, hfit, hin, hout⟩ := h.blocks
  rw [hh, List.append_nil] at hin
  rw [hq, List.nil_append] at hout
  have hs : (Stored.layout c).scan [] = .short := by cases c <;> rfl
  cases hstage : e.stage with
  | ended => exact absurd hstage h.going
  | opened =>
    rw [opening_of_opened hstage, List.append_nil] at hout
    rw [hout, Layout.read_front hs hfit, hin]
  | fresh =>
    -- nothing was given out, so that no block can have been written
    obtain rfl := hfresh hstage
    have hopening : e.opening = (Stored.layout c).preamble := by
      rw [opening, hstage, layout, h.coding]
    rw [hopening, List.nil_append, List.self_eq_append_right, List.flatMap_eq_nil_iff] at hout
    have hempty : bs = [] := by
      refine List.eq_nil_iff_forall_not_mem.2 fun b hb => ?_
      have hb0 : b = [] := (List.append_eq_nil_iff.1 (hout b hb)).2
      have hlen := (hfit b hb).1
      rw [hb0] at hlen
      exact absurd hlen (Nat.lt_irrefl 0)
    rw [Layout.read_nil hs, ← hin, hempty, List.flatten_nil]

/-- **What was flushed can be read**, and has not ended. -/
theorem flushes_unfinished_start : Engine.Flushes start fun coding bytes content =>
    (Stored.layout coding).read bytes = ⟨content, .unfinished⟩ := by
  intro coding mode pieces given e o h hm hp ho hdone
  have hk : e.Kept coding pieces given := by
    have hkeeps := keeps_transcript h
    rcases hm with rfl | rfl <;> exact hkeeps.1
  have ht := h.ask hm (fun _ => hp) ho
  obtain rfl := Except.ok.inj ho
  obtain ⟨hflushed, hheld, -⟩ := kept_flushed hk
  apply read_of_kept (kept_dropped hflushed) hheld
  · exact List.isEmpty_iff.1 hdone
  · exact fun hs => (given_of_fresh ht hs).1

/-- **What was flushed can be decoded.** -/
theorem flushes_start : Engine.Flushes start Decodes := by
  intro coding mode pieces given e o h hm hp ho hdone
  exact ⟨.unfinished, nofun, flushes_unfinished_start _ _ _ _ _ _ h hm hp ho hdone⟩

/-- **Whatever was given out is the front of a stream** of all that was taken. -/
theorem front_of_transcript {mode : Engine.Mode}
    (h : Engine.Transcript (start c) mode pieces given e) :
    ∃ bs, (Stored.layout c).Fits bs ∧ bs.flatten = pieces.flatten ∧
      given <+: (Stored.layout c).stream bs := by
  have hkeeps := keeps_transcript h
  have hfront (hc : e.Completes c pieces given) : ∃ bs, (Stored.layout c).Fits bs ∧
      bs.flatten = pieces.flatten ∧ given <+: (Stored.layout c).stream bs := by
    obtain ⟨bs, hfit, hin, hout⟩ := hc
    exact ⟨bs, hfit, hin, hout ▸ List.prefix_append ..⟩
  cases mode with
  | taking => exact hfront (completes_of_kept hkeeps.1)
  | amid d =>
    cases d with
    | flush => exact hfront (completes_of_kept hkeeps.1)
    | finish => exact hfront hkeeps
  | ended =>
    obtain ⟨bs, hfit, hin, rfl⟩ := hkeeps
    exact ⟨bs, hfit, hin, List.prefix_rfl⟩

/-- An empty piece is refused as the coding has it. -/
theorem refusesEmpty_transcript (h : Engine.Transcript (start c) .taking pieces given e) :
    e.refusesEmpty = !Engine.takesEmpty c pieces.isEmpty := by
  obtain ⟨hk, -, hfresh⟩ := keeps_transcript h
  unfold refusesEmpty layout
  rw [hk.coding]
  cases c with
  | zstd | brotli | deflate => rfl
  | gzip =>
    have hiff := hfresh rfl
    cases pieces with
    | nil => simp [Stored.layout, gzip, Engine.takesEmpty, hiff]
    | cons p ps =>
      have hne : e.stage ≠ .fresh := by simp [hiff]
      simp [Stored.layout, gzip, Engine.takesEmpty, hne]

/-- **Stored encoders take input** as the encoders that they stand for. -/
theorem takesInput_start : Engine.TakesInput start where
  filled _ hi := ⟨_, if_neg fun hr => hi hr.1⟩
  empty h ht := by
    have hr := refusesEmpty_transcript h
    rw [ht] at hr
    exact ⟨_, if_neg fun hn => by simp [hr] at hn⟩
  starves h ht := by
    have hr := refusesEmpty_transcript h
    rw [ht] at hr
    exact if_pos ⟨rfl, hr⟩
  asked _ _ _ := ⟨_, rfl⟩

end Encoder

/-- The selector with stored encoders, for bodies of any size. -/
def storing : Selector Encoder := { engine := Encoder.start, minSize := 0 }

end ContentCoding.Stored
