import Aesd.LineServer

/-! The server over the driver is the line server: clients that are served one after the other get its
replies, as long as the lines kept fit one block of the answer. -/
namespace Aesd
open CString FixedWidth Memory Replay

namespace Stores
variable {k : Kernel} {r : RingBuffer BufferEntry 10} {lines : List (List UInt8)}

theorem totalChars_of_vacant (s : Stores k r lines) (hvacant : ∀ e ∈ r.stale, e.size = 0) :
    k.dev.buffer.totalChars = (contents lines).length := by
  have hstale : (r.stale.map BufferEntry.size).sum = 0 := by
    refine List.sum_eq_zero fun n hn => ?_
    obtain ⟨e, he, rfl⟩ := List.mem_map.mp hn
    exact hvacant e he
  have hall : (r.slots.toList.map BufferEntry.size).sum = (contents lines).length := by
    rw [← r.sum_live_add_stale, hstale, Nat.add_zero, ← sizes, s.sizes_eq, length_contents]
  have hlt := s.sum_lt
  rw [← length_contents] at hlt
  rw [s.mirrors.totalChars_eq_sum (by omega), hall]

theorem read_beyond (s : Stores k r lines) (hvacant : ∀ e ∈ r.stale, e.size = 0) {env : ReadEnv}
    (hs : env.Succeeds) (ubuf : List UInt8) {count : Nat} (hcount : 0 < count)
    (hsize : ∀ l ∈ lines, count + l.length < 2 ^ 32) {fPos : Int}
    (hpos : fPos < k.dev.buffer.totalSize) {p : Nat} (hp : readPosition k.dev fPos = p)
    (hlt : p < 2 ^ 64) (hne : lines ≠ []) (hout : (contents lines).length ≤ p) :
    ∃ res, aesdRead env k ubuf count fPos = some res ∧ res.ret = 0 ∧
      res.kernel.dev = { k.dev with seek := false } ∧ Stores res.kernel r lines := by
  have htotal := s.totalSize
  rw [← length_contents] at htotal
  have hused : 0 < r.count := by
    rw [← s.length_eq]
    exact List.length_pos_iff.mpr hne
  have hfirst : 0 < (contents lines).length := by
    obtain ⟨l, hl⟩ := List.exists_mem_of_ne_nil _ hne
    obtain ⟨b, hb⟩ := List.exists_mem_of_ne_nil _ (s.nonempty l hl)
    exact List.length_pos_of_mem (List.mem_flatten.mpr ⟨l, hl, hb⟩)
  have hstart : readStart env.stale k.dev.buffer p = some (0, 0) := by
    have hchars : k.dev.buffer.totalChars ≤ p := by rwa [s.totalChars_of_vacant hvacant]
    have hnull : k.dev.buffer.findEntryOffsetForFpos p = .null := by
      rw [CircularBuffer.findEntryOffsetForFpos, if_neg (by omega), if_pos hchars]
    rw [readStart, if_pos (by omega), toSize_of_lt hlt, hnull]
  obtain ⟨j, hj, hplace⟩ := exists_place hused
  have hslot : 0 < (k.dev.buffer.slot (r.place j)).size := by
    have hdrop := s.mirrors.drop_sizes hj
    rw [s.sizes_eq, List.drop_eq_getElem_cons (by simpa [s.length_eq] using hj),
      List.getElem_map] at hdrop
    rw [← (List.cons.inj hdrop).1]
    exact List.length_pos_iff.mpr (s.nonempty _ (List.getElem_mem _))
  obtain ⟨hiff, -⟩ := s.copy hs hcount hsize hj hslot
  have hfault := fault_readFreed hs.toAllocates k count k.dev.buffer (r.place j)
    (readStop k.dev.buffer (r.place j)) 0
  have ext := readHelper_readBlocks_extends hs.toAllocates k count k.dev.buffer (r.place j)
    (readStop k.dev.buffer (r.place j)) 0
  have hcopy := hfault.trans (hiff.mpr (Or.inl rfl))
  rw [hplace] at hcopy ext
  have hwithin := aesdRead_within hs.toAllocates count ubuf s.unlocked hpos
  rw [hp, hstart, Option.map_some] at hwithin
  have hbeyond : ¬ (p : Int) < k.dev.buffer.totalSize := by omega
  exact ⟨_, hwithin, if_neg hbeyond, rfl, s.of_extends ext rfl s.unlocked hcopy⟩

end Stores

structure Serves (k : Kernel) (r : RingBuffer BufferEntry 10) (a : LineServer) : Prop where
  stores : Stores k r a.kept
  inOffs : r.inOffs = a.lines.length % 10
  full : r.full = decide (10 ≤ a.lines.length)
  vacant : ∀ e ∈ r.stale, e.size = 0
  complete : k.dev.isPartial = false
  seek : k.dev.seek = a.pending.isSome
  position : ∀ p ∈ a.pending, k.dev.seektoPosition = p ∧ p < 2 ^ 63

namespace Serves
variable {k : Kernel} {r : RingBuffer BufferEntry 10} {a : LineServer}

theorem load (unset : Unset) : Serves (initModule CircularBuffer.init.entry unset)
    (emptyRing CircularBuffer.init.entry) .start where
  stores := by
    refine ⟨.fresh _, rfl, rfl, ?_, ?_, fun l hl => ?_, fun l hl => ?_⟩
    · rw [live_emptyRing]
      exact .nil
    · rw [live_emptyRing]
      exact List.nodup_nil
    · cases hl
    · cases hl
  inOffs := rfl
  full := rfl
  vacant := by decide
  complete := rfl
  seek := rfl
  position p hp := by cases hp

theorem outOffs (s : Serves k r a) : r.outOffs = LineServer.newerCount a.lines.length := by
  have hfull := s.full
  rw [LineServer.newerCount]
  split
  · rename_i hlt
    exact r.outOffs_zero (by rw [hfull]; exact decide_eq_false (by omega))
  · rename_i hge
    rw [← r.offs_eq (by rw [hfull]; exact decide_eq_true (by omega)), s.inOffs]

theorem backBytes_eq (s : Serves k r a) :
    backBytes k.dev.buffer a.kept = (contents a.older).length := by
  rw [backBytes, s.stores.mirrors.outOffs, s.outOffs, ← List.map_take, ← length_contents]
  rfl

theorem readPosition_eq (s : Serves k r a) : readPosition k.dev 0 = (a.pending.getD 0 : Nat) := by
  rw [readPosition, s.seek]
  cases hpending : a.pending with
  | none => rfl
  | some p => exact (s.position p hpending).1

theorem slotSizes_eq (s : Serves k r a) : k.dev.buffer.slotSizes =
    (a.newer ++ a.older).map List.length ++ r.stale.map BufferEntry.size := by
  have hlive := s.stores.sizes_eq
  have hlen : k.dev.buffer.slotSizes.length = 10 := k.dev.buffer.length_slotSizes
  have hslots : k.dev.buffer.slotSizes = r.slots.toList.map BufferEntry.size := by
    rw [CircularBuffer.slotSizes, s.stores.mirrors.entry]
  rw [hslots] at hlen ⊢
  rw [sizes] at hlive
  have hout := s.outOffs
  rw [LineServer.newer, LineServer.older, ← hout, List.map_append, List.map_drop, List.map_take,
    ← hlive]
  cases hf : r.full
  · have hin := r.inOffs_lt
    rw [r.outOffs_zero hf, r.live_eq_take hf, RingBuffer.stale, hf, if_neg Bool.false_ne_true,
      List.drop_eq_nil_of_le (by simp), List.take_of_length_le (by simp), List.nil_append,
      ← List.map_append, List.take_append_drop]
  · have hlt := r.outOffs_lt
    rw [r.live_eq_rotate hf, RingBuffer.stale, hf, if_pos rfl, List.map_nil, List.append_nil,
      List.map_rotate, List.rotate_eq_drop_append_take (by omega),
      List.drop_left' (by rw [List.length_drop]; omega),
      List.take_left' (by rw [List.length_drop]; omega), List.take_append_drop]

theorem slotBytes_eq_take (b : CircularBuffer) {c : Nat} (hc : c ≤ 10) :
    slotBytes b c = (b.slotSizes.take c).sum := by
  rw [slotBytes]
  congr 1
  apply List.ext_getElem
  · rw [List.length_map, List.length_range, List.length_take, b.length_slotSizes,
      Nat.min_eq_left hc]
  · intro i h₁ h₂
    rw [List.length_map, List.length_range] at h₁
    have hi : i < maxWriteOperationsSupported := by
      unfold maxWriteOperationsSupported
      omega
    simp [CircularBuffer.slotSizes, CircularBuffer.slot, getElem?_pos b.entry i hi]

theorem slotBytes_eq (s : Serves k r a) {c : Nat} (hc : c ≤ 10) :
    slotBytes k.dev.buffer c = lineBytes (a.newer ++ a.older) c := by
  rw [slotBytes_eq_take _ hc, s.slotSizes_eq, List.take_append, List.sum_append, lineBytes]
  refine Nat.add_eq_left.mpr (List.sum_eq_zero fun n hn => ?_)
  obtain ⟨e, he, rfl⟩ := List.mem_map.mp (List.mem_of_mem_take hn)
  exact s.vacant e he

theorem line (s : Serves k r a) {env : WriteEnv} {text : List UInt8}
    (hv : LogOp.Valid (.write env text)) : ∃ res r', aesdWrite env k text = some res ∧
      res.ret = text.length ∧ Serves res.kernel r' ⟨a.lines ++ [text], a.pending⟩ := by
  obtain ⟨res, hcall, hret, -, hcomplete, hseek, -, st⟩ := s.stores.write s.complete hv
  obtain ⟨hs, hlast, hle⟩ := hv
  have hne : text ≠ [] := by
    rintro rfl
    cases hlast
  obtain ⟨res', hcall', -, -, -, -, ⟨-, -, hdev⟩ | ⟨hnot, -⟩⟩ :=
    aesdWrite_single hs s.stores.unlocked s.complete hne (hle.trans (by decide))
  · rw [hcall, Option.some.injEq] at hcall'
    subst hcall'
    have hin := s.inOffs
    refine ⟨res, r.push ⟨k.heap.next + 1, text.length⟩, hcall, hret, ?_, ?_, ?_, ?_, hcomplete,
      hseek.trans s.seek, fun p hp => ?_⟩
    · rw [appendLine, LineServer.kept, RingBuffer.rtake_append_rtake] at st
      exact st
    · show RingBuffer.next 10 r.inOffs = (a.lines ++ [text]).length % 10
      rw [RingBuffer.next, List.length_append, List.length_singleton]
      split <;> omega
    · show (r.full || decide (r.inOffs + 1 = 10)) = decide (10 ≤ (a.lines ++ [text]).length)
      rw [s.full, List.length_append, List.length_singleton, ← Bool.decide_or, decide_eq_decide]
      omega
    · rw [r.stale_push]
      exact fun e he => s.vacant e (List.mem_of_mem_tail he)
    · rw [hdev]
      exact s.position p hp
  · exact absurd hlast hnot

theorem taken (s : Serves k r a) {k' : Kernel} (st : Stores k' r a.kept)
    (hdev : k'.dev = { k.dev with seek := false }) : Serves k' r ⟨a.lines, none⟩ where
  stores := st
  inOffs := s.inOffs
  full := s.full
  vacant := s.vacant
  complete := by
    rw [hdev]
    exact s.complete
  seek := by
    rw [hdev]
    rfl
  position p hp := by cases hp

theorem answer_eq (s : Serves k r a) (p : Nat) : a.answer p =
    ((contents a.kept).drop p).take (stretchEnd k.dev.buffer a.kept p - p) := by
  rw [LineServer.answer, stretchEnd, s.backBytes_eq, ← a.contents_older_append_newer]
  split
  · rename_i hlt
    rw [List.drop_append_of_le_length hlt.le, List.take_append_of_le_length (by simp),
      List.take_of_length_le (by simp)]
  · rename_i hge
    have hdrop : (contents a.older ++ contents a.newer).drop p =
        (contents a.newer).drop (p - (contents a.older).length) := by
      rw [List.drop_append, List.drop_eq_nil_of_le (Nat.not_lt.mp hge), List.nil_append]
    rw [hdrop, List.take_of_length_le]
    rw [List.length_drop, List.length_append]
    omega

theorem lineBytes_le (a : LineServer) (c : Nat) :
    lineBytes (a.newer ++ a.older) c ≤ (contents a.kept).length := by
  have hperm : ((a.newer ++ a.older).map List.length).sum = (contents a.kept).length := by
    rw [← a.contents_older_append_newer, List.length_append, length_contents, length_contents,
      List.map_append, List.sum_append, Nat.add_comm]
  rw [lineBytes, ← hperm]
  exact (List.take_sublist _ _).sum_le_sum fun _ _ => Nat.zero_le _

theorem seekto (s : Serves k r a) {target : AesdSeekto} (hcmd : target.writeCmd < 10)
    (hoffset : target.writeCmdOffset < 2 ^ 32) (hfits : (contents a.kept).length < bufSize) :
    Serves (adjustFileOffset k target).1 r ⟨a.lines, some (a.target target)⟩ := by
  have hle := lineBytes_le a target.writeCmd
  unfold bufSize at hfits
  have htarget : seektoTarget k.dev target = (a.target target : Nat) := by
    rw [seektoTarget_eq _ hcmd.le, s.slotBytes_eq hcmd.le, LineServer.target, toSsize_of_lt]
    omega
  refine ⟨s.stores.of_extends ⟨Nat.le_refl _, fun _ _ => rfl⟩ rfl s.stores.unlocked ?_, s.inOffs,
    s.full, s.vacant, s.complete, rfl, fun p hp => ?_⟩
  · show (k.heap.fault || decide (maxWriteOperationsSupported < target.writeCmd)) = false
    rw [s.stores.faultless, decide_eq_false (by unfold maxWriteOperationsSupported; omega),
      Bool.or_false]
  · obtain rfl := Option.some.inj hp
    refine ⟨htarget, ?_⟩
    rw [LineServer.target]
    omega

variable {env : DeviceEnv} {w : DeviceWorld}

theorem first_read (s : Serves k r a) (hs : (env.read w.calls).Succeeds) (hne : a.lines ≠ [])
    (hfits : (contents a.kept).length < bufSize) (buf : List UInt8) :
    ∃ res n, aesdRead (env.read w.calls) k buf bufSize 0 = some res ∧ res.ret = (n : Nat) ∧
      n < bufSize ∧ res.ubuf.take n = a.answer (a.pending.getD 0) ∧
      n = (a.answer (a.pending.getD 0)).length ∧ Serves res.kernel r ⟨a.lines, none⟩ := by
  have st := s.stores
  have hB : bufSize < 2 ^ 31 := by decide
  have htotal := st.totalSize
  rw [← length_contents] at htotal
  have hkept : a.kept ≠ [] := by
    intro hnil
    have hlen := a.length_kept
    have hpos := List.length_pos_iff.mpr hne
    rw [hnil, List.length_nil] at hlen
    omega
  have hmem : ∀ l ∈ a.kept, l.length ≤ (contents a.kept).length := by
    intro l hl
    rw [length_contents]
    exact List.single_le_sum (fun _ _ => Nat.zero_le _) _ (List.mem_map_of_mem hl)
  have hsize : ∀ l ∈ a.kept, bufSize + l.length < 2 ^ 32 := by
    intro l hl
    have hle := hmem l hl
    omega
  have hpos : (0 : Int) < k.dev.buffer.totalSize := by
    obtain ⟨l, hl⟩ := List.exists_mem_of_ne_nil _ hkept
    have hle := hmem l hl
    have hfull := List.length_pos_iff.mpr (st.nonempty l hl)
    omega
  generalize hp : a.pending.getD 0 = p
  have hread : readPosition k.dev 0 = p := by rw [s.readPosition_eq, hp]
  have hstretch := stretchEnd_le k.dev.buffer a.kept p
  have hanswer := s.answer_eq p
  by_cases hin : p < (contents a.kept).length
  · obtain ⟨j, off, res, hcall, ra⟩ := st.read_at buf hs bufSize_pos hsize hpos hread
      (Or.inr ((st.totalChars_of_vacant s.vacant).symm ▸ hin)) hin
    have hfree : res.kernel.heap.fault = false := by
      rw [st.fault_iff_blockFits ra]
      intro j' off' hj' hoff' hp'
      have hle := hmem _ (List.getElem_mem hj')
      exact Or.inr (Or.inr ⟨by omega, by omega⟩)
    obtain ⟨n, hn, hn1, hnB, hle, hret, -, hbytes⟩ := ra.delivered hfree
    obtain ⟨hoff, hend⟩ := st.add_segment ra
    have hn' : n = stretchEnd k.dev.buffer a.kept p - p := by omega
    refine ⟨res, n, hcall, hret, by omega, ?_, ?_, s.taken (ra.stores hfree) ra.dev⟩
    · rw [hanswer, ← hn', hbytes]
    · rw [hanswer, ← hn', List.length_take, List.length_drop]
      omega
  · have hlt : p < 2 ^ 64 := by
      cases hpending : a.pending with
      | none =>
          rw [hpending] at hp
          subst hp
          decide
      | some q =>
          rw [hpending] at hp
          obtain rfl : q = p := hp
          exact (s.position q hpending).2.trans (by decide)
    obtain ⟨res, hcall, hret, hdev, st'⟩ := st.read_beyond s.vacant hs buf bufSize_pos hsize hpos
      hread hlt hkept (by omega)
    have hnil : a.answer p = [] := by
      rw [hanswer, List.drop_eq_nil_of_le (by omega), List.take_nil]
    exact ⟨res, 0, hcall, hret, bufSize_pos, by rw [hnil, List.take_zero], by rw [hnil]; rfl,
      s.taken st' hdev⟩

theorem reply (s : Serves k r a) (henv : ∀ i, (env.read i).Succeeds) (hne : a.lines ≠ [])
    (hfits : (contents a.kept).length < bufSize) (hk : w.kernel = k) (hpos : w.fPos = 0) (fd : Int)
    (buf : List UInt8) : ∃ u,
      (∀ fuel, returnLoop (deviceSyscalls env) fd (fuel + 1) buf w = some (0, u)) ∧
      u.sent = w.sent ++ a.answer (a.pending.getD 0) ∧ Serves u.kernel r ⟨a.lines, none⟩ := by
  obtain ⟨res, n, hcall, hret, hlt, hbytes, hn, s'⟩ := s.first_read (henv w.calls) hne hfits buf
  rw [← hk, ← hpos] at hcall
  have hread : n ≤ res.ubuf.length := by
    rw [← hbytes, List.length_take] at hn
    omega
  refine ⟨w.answered res n, fun fuel => ?_,
    by rw [DeviceWorld.answered, bytesFrom_of_le hread, hbytes], s'⟩
  rw [returnLoop_device fd fuel hcall hret, if_neg (Nat.ne_of_lt hlt)]

theorem reply_empty (s : Serves k r a) (henv : ∀ i, (env.read i).Succeeds) (hnil : a.lines = [])
    (hk : w.kernel = k) (hpos : w.fPos = 0) (fd : Int) (buf : List UInt8) : ∃ u,
      (∀ fuel, returnLoop (deviceSyscalls env) fd (fuel + 1) buf w = some (0, u)) ∧
      u.sent = w.sent ∧ Serves u.kernel r a := by
  have htotal := s.stores.totalSize
  have hkept : a.kept = [] := by
    rw [LineServer.kept, hnil]
    rfl
  rw [hkept] at htotal
  obtain ⟨res, hcall, hret, hfp, -, hdev, st⟩ := s.stores.read_pastEnd buf bufSize
    (henv w.calls) (show k.dev.buffer.totalSize ≤ 0 from htotal.le)
  rw [← hk, ← hpos] at hcall
  refine ⟨w.answered res 0, fun fuel => ?_, ?_, ⟨st, s.inOffs, s.full, s.vacant, ?_, ?_, ?_⟩⟩
  · have hzero : res.ret = (0 : Nat) := hret
    rw [returnLoop_device fd fuel hcall hzero, if_neg (Nat.ne_of_lt bufSize_pos)]
  · rw [DeviceWorld.answered, bytesFrom_of_le (Nat.zero_le _), List.take_zero, List.append_nil]
  · show res.kernel.dev.isPartial = false
    rw [hdev]
    exact s.complete
  · show res.kernel.dev.seek = _
    rw [hdev]
    exact s.seek
  · intro p hp
    show res.kernel.dev.seektoPosition = p ∧ _
    rw [hdev]
    exact s.position p hp

end Serves

namespace Client
variable {c : Client} {k : Kernel} {r : RingBuffer BufferEntry 10} {a : LineServer}

def asks (c : Client) : Request :=
  match parseCommand (ofBytes c.request) with
  | some (some target) => .seek target
  | _ => .line c.request

theorem Valid.serves_line (v : c.Valid) (h : c.Line) (s : Serves k r a)
    (hfits : (contents (a.step (.line c.request)).1.kept).length < bufSize) :
    ∃ k' r', (∀ fuel, c.serve (fuel + 1) k = some (k', (a.step (.line c.request)).2)) ∧
      Serves k' r' (a.step (.line c.request)).1 := by
  have hvalid : LogOp.Valid (.write (c.env.write 0) c.request) := by
    obtain ⟨text, htext⟩ := h.ends
    refine ⟨v.writes 0, by rw [htext, List.getLast?_concat], ?_⟩
    have hlen := v.length_le
    unfold bufSize at hlen
    unfold lineBound
    omega
  obtain ⟨res, r', hwrite, hret, s'⟩ := s.line hvalid
  obtain ⟨u, hloop, hsent, s''⟩ := s'.reply (w := ⟨res.kernel, 0, 1, [], []⟩) v.reads
    (List.append_ne_nil_of_right_ne_nil _ (List.cons_ne_nil _ _)) hfits rfl rfl 3 c.buf
  refine ⟨u.kernel, r', fun fuel => ?_, s''⟩
  rw [serve_eq (recieve_line v.length_le h hwrite (by omega) fuel) (hloop fuel), hsent]
  rfl

theorem Valid.serves_seek (v : c.Valid) {target : AesdSeekto} (h : c.Seek target)
    (s : Serves k r a) (hfits : (contents a.kept).length < bufSize) :
    ∃ k' r', (∀ fuel, c.serve (fuel + 1) k = some (k', (a.step (.seek target)).2)) ∧
      Serves k' r' (a.step (.seek target)).1 := by
  have s' := s.seekto h.cmd_lt (parseCommand_offset_lt h.parsed) hfits
  by_cases hnil : a.lines = []
  · obtain ⟨u, hloop, hsent, s''⟩ := s'.reply_empty
      (w := ⟨(adjustFileOffset k target).1, 0, 0, [], []⟩) v.reads hnil rfl rfl 3 c.buf
    refine ⟨u.kernel, r, fun fuel => ?_, ?_⟩
    · rw [serve_eq (recieve_seek v.length_le h k fuel) (hloop fuel), hsent, LineServer.step,
        if_pos hnil]
    · rw [LineServer.step, if_pos hnil]
      rwa [hnil] at s''
  · obtain ⟨u, hloop, hsent, s''⟩ := s'.reply
      (w := ⟨(adjustFileOffset k target).1, 0, 0, [], []⟩) v.reads hnil hfits rfl rfl 3 c.buf
    refine ⟨u.kernel, r, fun fuel => ?_, ?_⟩
    · rw [serve_eq (recieve_seek v.length_le h k fuel) (hloop fuel), hsent, LineServer.step,
        if_neg hnil]
      rfl
    · rw [LineServer.step, if_neg hnil]
      exact s''

theorem Valid.serves (v : c.Valid) (s : Serves k r a) (hfits : (contents a.kept).length < bufSize)
    (hfits' : (contents (a.step c.asks).1.kept).length < bufSize) :
    ∃ k' r', (∀ fuel, c.serve (fuel + 1) k = some (k', (a.step c.asks).2)) ∧
      Serves k' r' (a.step c.asks).1 := by
  rcases v.sends with hline | ⟨target, hseek⟩
  · have hasks : c.asks = .line c.request := by rw [asks, parseCommand_of_plain hline.plain]
    rw [hasks] at hfits' ⊢
    exact v.serves_line hline s hfits'
  · have hasks : c.asks = .seek target := by rw [asks, hseek.parsed]
    rw [hasks]
    exact v.serves_seek hseek s hfits

theorem serves_all (s : Serves k r a) (hfits : (contents a.kept).length < bufSize)
    (clients : List Client) (hvalid : ∀ c ∈ clients, c.Valid) (hall : a.Fits (clients.map asks)) :
    ∃ k' r', (∀ fuel, replay (serve (fuel + 1)) k clients =
        some (k', a.replies (clients.map asks))) ∧ Serves k' r' (a.after (clients.map asks)) := by
  induction clients generalizing k r a with
  | nil => exact ⟨k, r, fun _ => rfl, s⟩
  | cons c clients ih =>
      rw [List.forall_mem_cons] at hvalid
      obtain ⟨hnext, hrest⟩ := hall
      obtain ⟨k', r', hserve, s'⟩ := hvalid.1.serves s hfits hnext
      obtain ⟨k'', r'', hreplay, s''⟩ := ih s' hnext hvalid.2 hrest
      refine ⟨k'', r'', fun fuel => ?_, s''⟩
      rw [replay, hserve fuel]
      simp only [Option.bind_eq_bind, Option.bind_some, hreplay fuel]
      rfl

end Client

/-- The server refines the line server. Clients that send lines and seek commands are served one after
the other from the load of the module, each in one chunk: they get the line server's replies, and
no access of the driver is out of bounds. -/
theorem server_refines_lines (unset : Unset) (clients : List Client)
    (hvalid : ∀ c ∈ clients, c.Valid) (hfits : LineServer.start.Fits (clients.map Client.asks))
    (fuel : Nat) : ∃ k, replay (Client.serve (fuel + 1))
        (initModule CircularBuffer.init.entry unset) clients =
          some (k, LineServer.start.replies (clients.map Client.asks)) ∧
      k.heap.fault = false := by
  obtain ⟨k, r, hreplay, s⟩ := Client.serves_all (Serves.load unset) bufSize_pos clients hvalid
    hfits
  exact ⟨k, hreplay fuel, s.stores.faultless⟩

theorem server_refines_lines_seek : ∃ k, replay (Client.serve 1)
    (initModule CircularBuffer.init.entry .zeroed)
    [.sending seekToSecondByte, .sending [97, 98, 10], .sending seekToSecondByte,
      .sending [99, 10]] = some (k, [[], [98, 10], [98, 10], [97, 98, 10, 99, 10]]) := by
  have hline : (Client.sending [97, 98, 10]).Line :=
    ⟨parseCommand_eq_data_iff.mp (by decide +kernel), by decide +kernel, [97, 98], rfl⟩
  have hline' : (Client.sending [99, 10]).Line :=
    ⟨parseCommand_eq_data_iff.mp (by decide +kernel), by decide +kernel, [99], rfl⟩
  obtain ⟨k, hreplay, -⟩ := server_refines_lines .zeroed
    [.sending seekToSecondByte, .sending [97, 98, 10], .sending seekToSecondByte,
      .sending [99, 10]] (by
        simp only [List.mem_cons, List.not_mem_nil, or_false, forall_eq_or_imp, forall_eq]
        exact ⟨Client.valid_sending (by decide) (Or.inr ⟨_, seek_seekToSecondByte⟩),
          Client.valid_sending (by decide) (Or.inl hline),
          Client.valid_sending (by decide) (Or.inr ⟨_, seek_seekToSecondByte⟩),
          Client.valid_sending (by decide) (Or.inl hline')⟩) (by decide +kernel) 0
  exact ⟨k, hreplay.trans (congrArg (fun replies => some (k, replies)) (by decide +kernel))⟩

def replyLines (requests : List (List UInt8)) (i : Nat) : List (List UInt8) :=
  (requests.take (LineServer.complete (i + 1))).drop (i + 1 - 10)

theorem replyLines_own (requests : List (List UInt8)) {i : Nat} (hi : i < requests.length)
    (hown : i + 1 < 10 ∨ 10 ∣ i + 1) :
    replyLines requests i = (requests.take i).drop (i + 1 - 10) ++ [requests[i]] := by
  have hcomplete : LineServer.complete (i + 1) = i + 1 := by
    rw [LineServer.complete]
    split <;> omega
  rw [replyLines, hcomplete, List.take_succ_eq_append_getElem hi, List.drop_append_of_le_length]
  rw [List.length_take]
  omega

theorem replyLines_old (requests : List (List UInt8)) {i : Nat}
    (hold : ¬ (i + 1 < 10 ∨ 10 ∣ i + 1)) :
    replyLines requests i <+: (requests.take i).drop (i + 1 - 10) := by
  have hcomplete : LineServer.complete (i + 1) ≤ i := by
    rw [LineServer.complete]
    split <;> omega
  exact (List.take_prefix_take_left hcomplete).drop _

/-- Clients that send lines only: the n-th reply is the last ten lines up to the last group of ten that
is complete, or all lines when there are fewer than ten; the client's own line is the last of them
when `n < 10` or ten divides `n`, and else they are all older. -/
theorem line_replies (unset : Unset) (clients : List Client) (hvalid : ∀ c ∈ clients, c.Valid)
    (hlines : ∀ c ∈ clients, c.Line) (hfits : LineServer.start.Fits (clients.map Client.asks))
    (fuel : Nat) :
    let requests := clients.map Client.request
    (∃ k, replay (Client.serve (fuel + 1)) (initModule CircularBuffer.init.entry unset) clients =
        some (k, (List.range clients.length).map fun i => contents (replyLines requests i))) ∧
      ∀ i, (hi : i < requests.length) →
        (i + 1 < 10 ∨ 10 ∣ i + 1 →
          replyLines requests i = (requests.take i).drop (i + 1 - 10) ++ [requests[i]]) ∧
        (¬ (i + 1 < 10 ∨ 10 ∣ i + 1) →
          replyLines requests i <+: (requests.take i).drop (i + 1 - 10)) := by
  intro requests
  refine ⟨?_, fun i hi => ⟨replyLines_own requests hi, replyLines_old requests⟩⟩
  obtain ⟨k, hreplay, -⟩ := server_refines_lines unset clients hvalid hfits fuel
  refine ⟨k, ?_⟩
  have hasks : clients.map Client.asks = requests.map .line := by
    rw [List.map_map]
    refine List.map_congr_left fun c hc => ?_
    rw [Client.asks, parseCommand_of_plain (hlines c hc).plain]
    rfl
  rw [hreplay, hasks, LineServer.replies_lines _ ?_ _ rfl (fun l hl => by cases hl),
    List.length_map]
  · congr 2
    refine List.map_congr_left fun i hi => ?_
    have hlen : (requests.take (i + 1)).length = i + 1 := by
      rw [List.length_take, List.length_map, Nat.min_eq_left (List.mem_range.mp hi)]
    have hle : LineServer.complete (i + 1) ≤ i + 1 := by
      rw [LineServer.complete]
      split <;> omega
    show contents ((requests.take (i + 1)).take
      (LineServer.complete (requests.take (i + 1)).length) |>.drop
        ((requests.take (i + 1)).length - 10)) = contents (replyLines requests i)
    rw [hlen, List.take_take, Nat.min_eq_left hle, replyLines]
  · intro l hl
    obtain ⟨c, hc, rfl⟩ := List.mem_map.mp hl
    obtain ⟨text, htext⟩ := (hlines c hc).ends
    rw [htext]
    simp

theorem line_replies_eleven : ∃ k replies, replay (Client.serve 1)
    (initModule CircularBuffer.init.entry .zeroed)
    ((List.range 11).map fun i => .sending [97 + i.toUInt8, 10]) = some (k, replies) ∧
      replies[10]? = some [98, 10, 99, 10, 100, 10, 101, 10, 102, 10, 103, 10, 104, 10, 105, 10,
        106, 10] := by
  have hlines : ∀ c ∈ (List.range 11).map fun i => Client.sending [97 + i.toUInt8, 10],
      c.Line ∧ c.request.length ≤ bufSize := by
    intro c hc
    obtain ⟨i, hi, rfl⟩ := List.mem_map.mp hc
    have hall : ∀ i ∈ List.range 11, parseCommand (ofBytes [97 + i.toUInt8, 10]) = some none ∧
        10 ∈ ofBytes [97 + i.toUInt8, 10] := by decide +kernel
    exact ⟨⟨parseCommand_eq_data_iff.mp (hall i hi).1, (hall i hi).2, [97 + i.toUInt8], rfl⟩,
      (by decide : 2 ≤ bufSize)⟩
  obtain ⟨⟨k, hreplay⟩, -⟩ := line_replies .zeroed
    ((List.range 11).map fun i => .sending [97 + i.toUInt8, 10])
    (fun c hc => by
      obtain ⟨i, -, rfl⟩ := List.mem_map.mp hc
      exact Client.valid_sending (hlines _ hc).2 (Or.inl (hlines _ hc).1))
    (fun c hc => (hlines c hc).1) (by decide +kernel) 0
  exact ⟨k, _, hreplay, by decide +kernel⟩

end Aesd
