/-
# The channels of the server

`server.c`: the ids of the dynamic channels, the chunks of a static channel, and the table in which
a static channel is found.  `wts_queue_receive_data` serves both kinds and asserts that the id of
the channel is one of 16 bits; the ids of the dynamic channels are counted in 32.
-/
import WBFreeRDP.DynamicChannel

namespace WBFreeRDP.DynamicChannel

open List

/-! ## The ids of the dynamic channels -/

/-- The id that `FreeRDP_WTSVirtualChannelOpenEx` gives: `dvc_channel_id_seq`, a `LONG`, is
incremented and cast to a `uint32_t`; `none` where it is negative and the cast aborts. -/
def nextChannelId (seq : ℕ) : Option ℕ := if seq + 1 < 2 ^ 31 then some (seq + 1) else none

/-- The id of the newest channel, with `n` channels opened before it. -/
def openChannels : ℕ → Option ℕ
  | 0 => nextChannelId 0
  | n + 1 => (openChannels n).bind nextChannelId

/-- What a fragment does to a channel of the server: `wts_queue_receive_data` asserts that the id is
a `UINT16` before it posts, and `none` is where it aborts. -/
def PeerChannel.fragment? (channelId : ℕ) (dvc : PeerChannel) (f : Fragment) : Option PeerChannel :=
  if (dvc.fragment f).queue ≠ dvc.queue ∧ channelId > 0xFFFF then none else some (dvc.fragment f)

def PeerChannel.fragments? (channelId : ℕ) (dvc : PeerChannel) (fs : List Fragment) :
    Option PeerChannel :=
  fs.foldl (fun c f => c.bind (fragment? channelId · f)) (some dvc)

theorem openChannels_eq (n) : openChannels n = if n + 1 < 2 ^ 31 then some (n + 1) else none := by
  induction n with
  | zero => rfl
  | succ n ih =>
  rw [openChannels, ih]
  split_ifs with h h' h'
  · exact if_pos h'
  · exact if_neg h'
  · omega
  · rfl

variable {channelId : ℕ} {queue : List (List UInt8)}

/-- A channel as a run leaves it, `none` once it has aborted: with an id out of range it queues
nothing. -/
def Asserted (channelId : ℕ) (queue : List (List UInt8)) :
    Option PeerChannel → Option (ℕ × List UInt8) → List (List UInt8) → Prop
  | none, _, _ => 0xFFFF < channelId
  | some dvc, pending, received =>
      dvc.Holds pending received ∧ (0xFFFF < channelId → received = queue)

theorem Asserted.fragment (h : Asserted channelId queue c pending received)
    (hf : assemble pending f = some (pending', out)) :
    Asserted channelId queue (c.bind (PeerChannel.fragment? channelId · f)) pending'
      (received ++ out.flatMap posted) := by
  rcases c with _ | dvc
  · exact h
  have hholds := h.1.fragment hf
  rw [Option.bind_some, PeerChannel.fragment?]
  split_ifs with habort
  · exact habort.2
  refine ⟨hholds, fun hlarge => ?_⟩
  rw [← hholds.queue_eq, ← h.2 hlarge, ← h.1.queue_eq]
  exact not_not.mp fun hne => habort ⟨hne, hlarge⟩

/-- **The newest channel gets its messages** while the ids fit into 16 bits, and unless a message is
too long for the queue; from the 65536th channel on the server aborts. -/
theorem newest_channel_queues_iff (n channelId : ℕ) (hopen : openChannels n = some channelId)
    (dvc : PeerChannel) (queue : List (List UInt8)) (hidle : dvc.Idle queue) (m : List UInt8)
    (fs : List Fragment) (hfs : IsMessage m fs) :
    (∃ dvc', dvc.fragments? channelId fs = some dvc' ∧ dvc'.Idle (queue ++ [m])) ↔
      n < 0xFFFF ∧ m.length ≤ 2 ^ 32 - 1 - sizeofWtsChannelMessage := by
  rw [openChannels_eq] at hopen
  split_ifs at hopen
  cases hopen
  have hrun : Asserted (n + 1) queue (dvc.fragments? (n + 1) fs) none (queue ++ posted m) :=
    @foldl_message _ _ _ _ _ (Asserted (n + 1) queue) _ Asserted.fragment _ hfs
      ⟨⟨hidle.opened, hidle.queue_eq, hidle.total⟩, fun _ => rfl⟩
  constructor
  · rintro ⟨dvc', hrun', hdvc'⟩
    rw [hrun'] at hrun
    obtain ⟨hholds, hlarge⟩ := hrun
    have hposted : posted m = [m] := append_cancel_left (hholds.queue_eq.symm.trans hdvc'.queue_eq)
    constructor
    · by_contra hn
      have hnil := hlarge (by omega)
      rw [hposted, append_right_eq_self] at hnil
      cases hnil
    · by_contra hlong
      rw [posted, if_pos (not_le.mp hlong)] at hposted
      cases hposted
  · rintro ⟨hn, hlen⟩
    rw [posted, if_neg (not_lt.mpr hlen)] at hrun
    rcases hc : dvc.fragments? (n + 1) fs with _ | dvc'
    · rw [hc] at hrun
      exact absurd hn (Nat.le_of_lt_succ hrun).not_gt
    · rw [hc] at hrun
      exact ⟨dvc', rfl, hrun.1.opened, hrun.1.held, hrun.1.queue_eq⟩

theorem newest_channel_queues_first : ∃ dvc', openedChannel.fragments? 1 [.first 2 [7], .data [8]] =
    some dvc' ∧ dvc'.Idle [[7, 8]] :=
  (newest_channel_queues_iff 0 1 rfl openedChannel [] ⟨rfl, rfl, rfl⟩ [7, 8] _
    (@IsMessage.fragmented _ [7] [[8]] rfl nofun (by decide))).mpr (by decide)

/-- The channel that is opened after 65535 others. -/
theorem newest_channel_aborts :
    openChannels 0xFFFF = some 0x10000 ∧ openedChannel.fragments? 0x10000 [.data [7]] = none :=
  ⟨(openChannels_eq _).trans (if_pos (by decide)), by decide⟩

/-! ## The chunks of a static channel -/

/-- A chunk for `WTSProcessChannelData`; `first` and `last` are its flags `CHANNEL_FLAG_FIRST` and
`CHANNEL_FLAG_LAST`. -/
structure Chunk where
  first : Bool
  last : Bool
  data : List UInt8
  totalSize : ℕ

/-- `WTSProcessChannelData` on a channel other than `drdynvc` and without
`CHANNEL_OPTION_SHOW_PROTOCOL`. -/
def wtsProcessChannelData (channel : PeerChannel) (chunk : Chunk) : Bool × PeerChannel :=
  let receiveData := (if chunk.first then [] else channel.receiveData) ++ chunk.data
  -- bytes that are not as many as the total size are logged, and queued
  if chunk.last then
    let (ret, channel) :=
      if receiveData.length > 2 ^ 32 - 1 then (false, channel)
        else wtsQueueReceiveData channel receiveData
    (ret, { channel with receiveData := [] })
  else (true, { channel with receiveData := receiveData })

/-- The chunks of a run. -/
def receiveChunks (channel : PeerChannel) (cs : List Chunk) : PeerChannel :=
  cs.foldl (fun channel c => (wtsProcessChannelData channel c).2) channel

/-- The chunks of the open message with a further one. -/
def Chunk.after (c : Chunk) (cur : List Chunk) : List Chunk := if c.first then [c] else cur ++ [c]

/-- Chunks of a peer that keeps to the protocol, from a message on of which `cur` has come: only an
open message is continued, and the last chunk announces the size of the message. -/
def InOrder : List Chunk → List Chunk → Prop
  | _, [] => True
  | cur, c :: cs =>
    (c.first = false → cur ≠ []) ∧
      (c.last = true → ((c.after cur).flatMap Chunk.data).length = c.totalSize) ∧
      InOrder (if c.last then [] else c.after cur) cs

/-- Consecutive chunks that make a message: the first has the flag for it, only the last is the
last, and announces the size. -/
structure Complete (run : List Chunk) (m : List UInt8) : Prop where
  first : run.head?.any Chunk.first = true
  last : ∃ init c, run = init ++ [c] ∧ (∀ x ∈ init, x.last = false) ∧ c.last = true ∧
    c.totalSize = m.length
  data : run.flatMap Chunk.data = m

/-- A channel in the middle of the chunks `cur`, after the chunks `past`. -/
structure Assembling (past cur : List Chunk) (channel : PeerChannel) : Prop where
  queued : ∀ m ∈ channel.queue, ∃ run, run <:+: past ∧ Complete run m
  recent : cur <:+ past
  begun : cur ≠ [] → cur.head?.any Chunk.first = true ∧ channel.receiveData = cur.flatMap Chunk.data
  unfinished : ∀ c ∈ cur, c.last = false

/-- **One chunk.** -/
theorem Assembling.step (h : Assembling past cur channel) (hcur : c.first = false → cur ≠ [])
    (htotal : c.last = true → ((c.after cur).flatMap Chunk.data).length = c.totalSize) :
    Assembling (past ++ [c]) (if c.last then [] else c.after cur)
      (wtsProcessChannelData channel c).2 := by
  obtain ⟨hqueued, hrecent, hbegun, hunfinished⟩ := h
  have hqueued : ∀ m ∈ channel.queue, ∃ run, run <:+: past ++ [c] ∧ Complete run m := by
    intro m hm
    obtain ⟨run, hrun, hcomplete⟩ := hqueued m hm
    exact ⟨run, hrun.trans (prefix_append _ _).isInfix, hcomplete⟩
  -- the bytes held with those of the chunk
  obtain ⟨init, hinit, hlast, hfirst, hdata, hsuffix⟩ : ∃ init, c.after cur = init ++ [c] ∧
      (∀ x ∈ init, x.last = false) ∧ (c.after cur).head?.any Chunk.first = true ∧
      (if c.first then [] else channel.receiveData) ++ c.data = (c.after cur).flatMap Chunk.data ∧
      c.after cur <:+ past ++ [c] := by
    rcases hc : c.first with _ | _
    · obtain ⟨hhead, hheld⟩ := hbegun (hcur hc)
      obtain ⟨d, ds, rfl⟩ := exists_cons_of_ne_nil (hcur hc)
      simp only [Chunk.after, hc]
      exact ⟨_, rfl, hunfinished, hhead, by simp [hheld],
        (suffix_append_inj_of_length_eq rfl).mpr ⟨hrecent, rfl⟩⟩
    · simp only [Chunk.after, hc]
      exact ⟨[], rfl, nofun, by simp [hc], by simp, suffix_append _ _⟩
  simp only [wtsProcessChannelData, hdata]
  by_cases hl : c.last = true
  · rw [if_pos hl]
    refine ⟨fun m hm => ?_, nil_suffix, fun hne => absurd rfl hne, nofun⟩
    simp only [wtsQueueReceiveData] at hm
    split_ifs at hm
    · exact hqueued m hm
    · exact hqueued m hm
    rcases mem_append.mp hm with hm | hm
    · exact hqueued m hm
    · obtain rfl := mem_singleton.mp hm
      exact ⟨_, hsuffix.isInfix, hfirst, ⟨init, c, hinit, hlast, hl, (htotal hl).symm⟩, rfl⟩
  · rw [if_neg hl, if_neg hl]
    refine ⟨hqueued, hsuffix, fun _ => ⟨hfirst, rfl⟩, ?_⟩
    rw [hinit]
    exact forall_mem_append.mpr ⟨hlast, forall_mem_singleton.mpr (by simpa using hl)⟩

/-- **A peer that keeps to the protocol**: every message that the application gets is made of
consecutive chunks, from a first to a last one, and as long as announced. -/
theorem queued_messages_complete (channel : PeerChannel) (hnew : channel.queue = [])
    (cs : List Chunk) (hcs : InOrder [] cs) :
    ∀ m ∈ (receiveChunks channel cs).queue, ∃ run, run <:+: cs ∧ Complete run m := by
  have hrun : ∀ cs past cur channel, Assembling past cur channel →
      InOrder cur cs → ∃ cur', Assembling (past ++ cs) cur' (receiveChunks channel cs) := by
    intro cs
    induction cs with
    | nil =>
      intro past cur channel h _
      exact ⟨cur, by rwa [append_nil]⟩
    | cons c cs ih =>
    rintro past cur channel h ⟨hcur, htotal, hcs⟩
    obtain ⟨cur', h'⟩ := ih _ _ _ (h.step hcur htotal) hcs
    rw [append_assoc] at h'
    exact ⟨cur', h'⟩
  obtain ⟨cur, h⟩ := hrun cs [] [] channel
    ⟨by simp [hnew], nil_suffix, fun hne => absurd rfl hne, nofun⟩ hcs
  exact h.queued

/-- A message of two chunks. -/
theorem queued_messages_complete_two :
    ∃ run : List Chunk, run <:+: [⟨true, false, [7], 2⟩, ⟨false, true, [8], 2⟩] ∧
    Complete run [7, 8] := by
  refine queued_messages_complete openedChannel rfl _ ?_ _ ?_
  · exact ⟨nofun, nofun, by decide, by decide, trivial⟩
  · decide

/-- A chunk alone, without the flag for the first one and with another size. -/
theorem incomplete_message_queued :
    (receiveChunks openedChannel [⟨false, true, [7], 5⟩]).queue = [[7]] ∧
      ∀ run, run <:+: [(⟨false, true, [7], 5⟩ : Chunk)] → ¬ Complete run [7] := by
  refine ⟨rfl, fun run hrun h => ?_⟩
  obtain ⟨init, c, rfl, -, -, hsize⟩ := h.last
  obtain rfl := mem_singleton.mp (hrun.subset (mem_append_right _ (mem_singleton_self c)))
  cases hsize

/-! ## Opening a static channel -/

/-- A channel of the MCS table, with the bytes of its name before the zero. -/
structure McsChannel where
  name : List UInt8
  joined : Bool

/-- `strncmp(a, b, n) == 0`. -/
def strncmpEq : ℕ → List UInt8 → List UInt8 → Bool
  | 0, _, _ => true
  | n + 1, a, b => a.headD 0 == b.headD 0 && (a.headD 0 == 0 || strncmpEq n a.tail b.tail)

def McsChannel.Takes (virtualName : List UInt8) (c : McsChannel) : Bool :=
  c.joined && strncmpEq virtualName.length c.name virtualName

/-- The entry of the table that `FreeRDP_WTSVirtualChannelOpen` attaches to, `none` for
`ERROR_NOT_FOUND`.  The handle is kept in the entry from its first open on, so that the entry stands
for the handle that is returned. -/
def virtualChannelOpen (channels : List McsChannel) (virtualName : List UInt8) :
    Option McsChannel :=
  if virtualName.length > 7 then none
  else channels.find? (McsChannel.Takes virtualName)

/-- A name is compared with as many bytes of another as it has itself. -/
theorem strncmpEq_iff (hzero : 0 ∉ b) : strncmpEq b.length a b = true ↔ b <+: a := by
  induction b generalizing a with
  | nil => exact iff_of_true rfl nil_prefix
  | cons x b ih =>
  obtain ⟨hx, hb⟩ := not_or.mp (mem_cons.not.mp hzero)
  rcases a with _ | ⟨y, a⟩
  · simp [strncmpEq, hx]
  simp only [length_cons, strncmpEq, tail_cons, Bool.and_eq_true, beq_iff_eq,
    Bool.or_eq_true, ih hb, cons_prefix_cons]
  constructor
  · rintro ⟨rfl, h⟩
    exact ⟨rfl, h.resolve_left (Ne.symm hx)⟩
  · rintro ⟨rfl, h⟩
    exact ⟨rfl, .inr h⟩

/-- An open attaches to the channel of the name, if that is joined, and to no other. -/
def Finds (channels : List McsChannel) (name : List UInt8) : Prop :=
  ∀ c, virtualChannelOpen channels name = some c ↔ c ∈ channels ∧ c.joined = true ∧ c.name = name

/-- In front of a joined channel with a longer name of the same beginning is the one of the name. -/
def Unshadowed (channels : List McsChannel) (name : List UInt8) : Prop :=
  ∀ before c after, channels = before ++ c :: after → c.joined = true → name <+: c.name →
    c.name ≠ name → ∃ d ∈ before, d.joined = true ∧ d.name = name

theorem finds_iff (hnames : (channels.map McsChannel.name).Nodup)
    (hname : name.length ≤ 7 ∧ 0 ∉ name) : Finds channels name ↔ Unshadowed channels name := by
  have htaken (c : McsChannel) : c.Takes name = true ↔ c.joined = true ∧ name <+: c.name := by
    rw [McsChannel.Takes, Bool.and_eq_true, strncmpEq_iff hname.2]
  unfold Finds virtualChannelOpen
  rw [if_neg hname.1.not_gt]
  constructor
  · intro h before c after heq hjoined hname hne
    have hc := (htaken c).mpr ⟨hjoined, hname⟩
    rcases hfind : before.find? (McsChannel.Takes name) with _ | d
    · refine absurd ((h c).mp ?_).2.2 hne
      rw [heq, find?_append, hfind, find?_cons_of_pos hc]
      rfl
    · refine ⟨d, mem_of_find?_eq_some hfind, ((h d).mp ?_).2⟩
      rw [heq, find?_append, hfind]
      rfl
  intro h
  -- what is taken has the name itself
  have hown {c : McsChannel} (hfind : channels.find? (McsChannel.Takes name) = some c) :
      c ∈ channels ∧ c.joined = true ∧ c.name = name := by
    obtain ⟨hc, before, after, heq, hbefore⟩ := find?_eq_some_iff_append.mp hfind
    obtain ⟨hjoined, hname⟩ := (htaken c).mp hc
    refine ⟨mem_of_find?_eq_some hfind, hjoined, by_contra fun hne => ?_⟩
    obtain ⟨d, hd, hjoined', rfl⟩ := h before c after heq hjoined hname hne
    simpa [(htaken d).mpr ⟨hjoined', prefix_rfl⟩] using hbefore d hd
  refine fun c => ⟨hown, ?_⟩
  rintro ⟨hmem, hjoined, rfl⟩
  rcases hfind : channels.find? (McsChannel.Takes c.name) with _ | d
  · exact absurd ((htaken c).mpr ⟨hjoined, prefix_rfl⟩) (find?_eq_none.mp hfind c hmem)
  obtain ⟨hmem', -, hname⟩ := hown hfind
  rw [inj_on_of_nodup_map hnames hmem' hmem hname]

/-- **Opening a static channel finds the channel of that name**, and different names give different
handles, exactly if no requested name is the beginning of a longer one that is joined, unless the
channel of the name is in front of that. -/
theorem static_open_iff (channels : List McsChannel) (hnames : (channels.map McsChannel.name).Nodup)
    (names : List (List UInt8)) (hrequested : ∀ name ∈ names, name.length ≤ 7 ∧ 0 ∉ name) :
    ((∀ name ∈ names, Finds channels name) ∧ ∀ a ∈ names, ∀ b ∈ names, ∀ c,
      virtualChannelOpen channels a = some c → virtualChannelOpen channels b = some c → a = b) ↔
      ∀ name ∈ names, Unshadowed channels name := by
  have hiff name (hname : name ∈ names) := finds_iff hnames (hrequested name hname)
  constructor
  · exact fun h name hname => (hiff name hname).mp (h.1 name hname)
  intro h
  have hfinds name hname := (hiff name hname).mpr (h name hname)
  refine ⟨hfinds, fun a ha b hb c hopen hopen' => ?_⟩
  exact ((hfinds a ha c).mp hopen).2.2.symm.trans ((hfinds b hb c).mp hopen').2.2

/-- Requests for `a` and `ab` in a table with these channels in this order. -/
theorem static_open_iff_two : Finds [⟨[97], true⟩, ⟨[97, 98], true⟩] [97] ∧
    Finds [⟨[97], true⟩, ⟨[97, 98], true⟩] [97, 98] := by
  have hshadow : ∀ name ∈ [[97], [97, 98]], Unshadowed [⟨[97], true⟩, ⟨[97, 98], true⟩] name := by
    rintro name hname before c after heq - hprefix hne
    rcases mem_pair.mp hname with rfl | rfl
    · -- the channel `a` is in front of `ab`
      rcases before with _ | ⟨first, before⟩
      · cases heq
        exact absurd rfl hne
      · cases (cons.inj heq).1
        exact ⟨_, mem_cons_self, rfl, rfl⟩
    · -- and no name is longer than `ab`
      have hmem : c ∈ [⟨[97], true⟩, ⟨[97, 98], true⟩] :=
        heq ▸ mem_append_right before mem_cons_self
      rcases mem_pair.mp hmem with rfl | rfl
      · exact absurd hprefix.length_le (by decide)
      · exact absurd rfl hne
  have hfinds := ((static_open_iff [⟨[97], true⟩, ⟨[97, 98], true⟩] (by decide) [[97], [97, 98]]
    (by decide)).mpr hshadow).1
  exact ⟨hfinds _ mem_cons_self, hfinds _ (mem_cons_of_mem _ mem_cons_self)⟩

/-- A request for `a` gets the channel `ab`, as one for `ab` does. -/
theorem shadowed_open :
    virtualChannelOpen [⟨[97, 98], true⟩, ⟨[97], true⟩] [97] = some ⟨[97, 98], true⟩ ∧
      virtualChannelOpen [⟨[97, 98], true⟩, ⟨[97], true⟩] [97, 98] = some ⟨[97, 98], true⟩ :=
  ⟨rfl, rfl⟩

end WBFreeRDP.DynamicChannel
