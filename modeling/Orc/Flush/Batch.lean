import Mathlib.Data.List.GetD
import Orc.Codec.Frame
import Orc.Order.Classes

/-!
# Decoded records in memory

A `Batch` holds the frames of a flush in one arena, with a fixed-size entry per frame: where it
lies, its timestamp, its arrival, its interned group and where in the frame its id lies. The lengths
are stored in the widths the source gives them.

The representation is kept because what can go wrong is in it. An entry stores the place and the
length of an id in two bytes each and the length of a frame in four; sorting compares ids through
these, so a frame in which they do not fit would be sorted by other bytes than its id. Groups are
interned, so that an entry holds a number instead of a name. The order of the entries is by group
all the same, through a table of ranks: nothing may depend on which group was seen first.

## What a batch stands for

`Batch.heads` lists the groups and records an entry list stands for. Pushing adds one at the end
(`heads_push`), sorting normalises the list (`heads_sort`), and the sources of a sorted batch are
the records of each group, normalised, group after group (`sources_sort`). The modules that follow
use these three and do not look at entries again.

`Batch.Ok` is what makes this so: every entry points at a group and into the arena, with its frame
and with its id, and no group is interned twice.
-/

namespace Orc

open Bytes Order

/-- `(series, epoch)`: one output file per hour of each. -/
abbrev GroupKey := String × UInt32

/-- The order of group keys: names bytewise, then epochs. -/
def GroupKey.ord (g : GroupKey) : Bytes ×ₗ ℕ := toLex (utf8 g.1, g.2.toNat)

/-- The record a source is positioned on. -/
structure Head where
  ts : UInt64
  id : Bytes
  /-- Segment id and byte offset. -/
  arrival : ℕ × ℕ
  frame : Bytes
  deriving DecidableEq, Repr

/-- What duplicates share. -/
def Head.key (h : Head) : ℕ ×ₗ Bytes := toLex (h.ts.toNat, h.id)

/-- What decides between duplicates: the least arrival survives. -/
def Head.rank (h : Head) : ℕ ×ₗ ℕ := toLex h.arrival

/-- One record of a batch: frame location in the arena plus sort key. -/
structure MemEntry where
  ts : UInt64
  arrival : ℕ × ℕ
  frame : ℕ
  frameLen : ℕ
  group : ℕ
  idOff : ℕ
  idLen : ℕ
  deriving DecidableEq, Repr

/-- The size of an entry in memory. -/
def memEntryBytes : ℕ := 48

/-- Decoded records held in memory, up to the flush's budget. -/
structure Batch where
  arena : Bytes := []
  entries : List MemEntry := []
  /-- Interned group keys. -/
  groups : List GroupKey := []
  deduplicated : ℕ := 0
  deriving DecidableEq, Repr

namespace Batch

def groupKey (b : Batch) (e : MemEntry) : GroupKey := b.groups.getD e.group ("", 0)

/-- The id bytes of an entry. -/
def id (b : Batch) (e : MemEntry) : Bytes := (b.arena.drop (e.frame + e.idOff)).take e.idLen

/-- The record an entry stands for. -/
def head (b : Batch) (e : MemEntry) : Head :=
  ⟨e.ts, b.id e, e.arrival, (b.arena.drop e.frame).take e.frameLen⟩

/-- The index of a group key: that of the last entry if it is the same, else found by a scan, else
new. -/
def intern (b : Batch) (group : GroupKey) : ℕ × List GroupKey :=
  let scan := match b.groups.idxOf? group with
    | some i => (i, b.groups)
    | none => (b.groups.length, b.groups ++ [group])
  match b.entries.getLast? with
  | some last => if b.groups[last.group]? = some group then (last.group, b.groups) else scan
  | none => scan

/-- Copy one verified frame in; its id lies at `idOff`. The frame length is stored in 32 bits, the
offset and length of the id in 16. -/
def push (b : Batch) (group : GroupKey) (ts : UInt64) (id : String) (idOff : ℕ) (arrival : ℕ × ℕ)
    (frame : Bytes) : Batch :=
  { b with
    arena := b.arena ++ frame
    entries := b.entries ++ [{
      ts, arrival
      frame := b.arena.length
      frameLen := frame.length % 2 ^ 32
      group := (b.intern group).1
      idOff := idOff % 2 ^ 16
      idLen := (utf8 id).length % 2 ^ 16 }]
    groups := (b.intern group).2 }

/-- Bytes held; measured against the budget. -/
def bytes (b : Batch) : ℕ := b.arena.length + b.entries.length * memEntryBytes

/-- What entries are sorted and deduplicated by, before their arrival: the group, the timestamp and
the id. Groups compare by their keys; a key is interned once, so two entries have the same key when
they have the same index. -/
def sortKey (b : Batch) (e : MemEntry) : (Bytes ×ₗ ℕ) ×ₗ (ℕ ×ₗ Bytes) :=
  toLex ((b.groupKey e).ord, (b.head e).key)

/-- Sort by group, timestamp, id and arrival, and drop duplicates, keeping the first arrival. -/
def sort (b : Batch) : Batch :=
  let kept := canon b.sortKey (fun e ↦ toLex e.arrival) b.entries
  { b with entries := kept, deduplicated := b.deduplicated + (b.entries.length - kept.length) }

/-- Each group's contiguous entries. -/
def groupRanges (b : Batch) : List (GroupKey × List MemEntry) :=
  (cut MemEntry.group b.entries).map fun r ↦ (b.groupKey (r.headD ⟨0, (0, 0), 0, 0, 0, 0, 0⟩), r)

/-- The records of each group. -/
def sources (b : Batch) : List (GroupKey × List Head) :=
  b.groupRanges.map fun (g, r) ↦ (g, r.map b.head)

/-! ## The contents of a batch -/

/-- The groups and records of a batch, in the order of its entries. -/
def heads (b : Batch) : List (GroupKey × Head) := b.entries.map fun e ↦ (b.groupKey e, b.head e)

/-- Group keys are interned once, and entries lie within the tables they point into. -/
structure Ok (b : Batch) : Prop where
  nodup : b.groups.Nodup
  group_lt : ∀ e ∈ b.entries, e.group < b.groups.length
  frame_le : ∀ e ∈ b.entries, e.frame + e.frameLen ≤ b.arena.length
  id_le : ∀ e ∈ b.entries, e.frame + e.idOff + e.idLen ≤ b.arena.length

theorem ok_empty : Ok {} := ⟨List.nodup_nil, by simp, by simp, by simp⟩

theorem intern_spec {b : Batch} (hb : b.Ok) (group : GroupKey) :
    (b.intern group).2[(b.intern group).1]? = some group ∧ b.groups <+: (b.intern group).2 ∧
      (b.intern group).2.Nodup := by
  have hscan : ∀ s, s = (match b.groups.idxOf? group with
      | some i => (i, b.groups)
      | none => (b.groups.length, b.groups ++ [group])) →
      s.2[s.1]? = some group ∧ b.groups <+: s.2 ∧ s.2.Nodup := by
    rintro s rfl
    cases hidx : b.groups.idxOf? group with
    | none =>
      refine ⟨by simp, List.prefix_append _ _, ?_⟩
      rw [List.idxOf?_eq_none_iff] at hidx
      exact List.nodup_append.2 ⟨hb.nodup, List.nodup_singleton _, by
        rintro x hx y hy rfl
        exact hidx (List.mem_singleton.1 hy ▸ hx)⟩
    | some i =>
      refine ⟨?_, List.prefix_rfl, hb.nodup⟩
      obtain ⟨hlt, hget, -⟩ := List.idxOf?_eq_some_iff.1 hidx
      rw [List.getElem?_eq_getElem hlt, hget]
  unfold intern
  cases b.entries.getLast? with
  | none => exact hscan _ rfl
  | some last =>
    dsimp only
    split_ifs with hlast
    · exact ⟨hlast, List.prefix_rfl, hb.nodup⟩
    · exact hscan _ rfl

private theorem take_drop_append {a f : Bytes} {off n : ℕ} (h : off + n ≤ a.length) :
    ((a ++ f).drop off).take n = (a.drop off).take n := by
  rw [List.drop_append_of_le_length (by omega), List.take_append_of_le_length]
  rw [List.length_drop]
  omega

/-- The record a pushed entry stands for: the frame and its id, as far as the widths keep them. -/
def pushed (ts : UInt64) (id : String) (idOff : ℕ) (arrival : ℕ × ℕ) (frame : Bytes) : Head :=
  ⟨ts, (frame.drop (idOff % 2 ^ 16)).take ((utf8 id).length % 2 ^ 16), arrival,
    frame.take (frame.length % 2 ^ 32)⟩

section Push

variable {b : Batch} {group : GroupKey} {ts : UInt64} {id : String} {idOff : ℕ} {arrival : ℕ × ℕ}
  {frame : Bytes}

theorem ok_push (hb : b.Ok)
    (hid : idOff % 2 ^ 16 + (utf8 id).length % 2 ^ 16 ≤ frame.length) :
    (b.push group ts id idOff arrival frame).Ok := by
  obtain ⟨hget, hpre, hnodup⟩ := intern_spec hb group
  have hmod : frame.length % 2 ^ 32 ≤ frame.length := Nat.mod_le _ _
  refine ⟨hnodup, fun e he ↦ ?_, fun e he ↦ ?_, fun e he ↦ ?_⟩
  · rcases List.mem_append.1 he with he | he
    · exact (hb.group_lt e he).trans_le hpre.length_le
    · obtain rfl := List.mem_singleton.1 he
      exact (List.getElem?_eq_some_iff.1 hget).1
  · rw [push, List.length_append]
    rcases List.mem_append.1 he with he | he
    · have := hb.frame_le e he
      omega
    · obtain rfl := List.mem_singleton.1 he
      dsimp only
      omega
  · rw [push, List.length_append]
    rcases List.mem_append.1 he with he | he
    · have := hb.id_le e he
      omega
    · obtain rfl := List.mem_singleton.1 he
      dsimp only
      omega

/-- **Pushing** adds one record at the end. -/
theorem heads_push (hb : b.Ok) :
    (b.push group ts id idOff arrival frame).heads =
      b.heads ++ [(group, pushed ts id idOff arrival frame)] := by
  obtain ⟨hget, hpre, -⟩ := intern_spec hb group
  obtain ⟨more, hmore⟩ := hpre
  simp only [heads, push, List.map_append, List.map_singleton]
  refine congrArg₂ (· ++ ·) (List.map_congr_left fun e he ↦ ?_) ?_
  · simp only [groupKey, head, Batch.id]
    rw [take_drop_append (hb.id_le e he), take_drop_append (hb.frame_le e he), ← hmore,
      List.getD_append _ _ _ _ (hb.group_lt e he)]
  · simp only [groupKey, head, Batch.id, pushed, List.cons.injEq, and_true, Prod.mk.injEq]
    refine ⟨?_, ?_⟩
    · rw [List.getD_eq_getElem?_getD, hget]
      rfl
    · rw [← List.drop_drop, List.drop_left]

end Push

private theorem ok_sort {b : Batch} (hb : b.Ok) : b.sort.Ok :=
  ⟨hb.nodup, fun e he ↦ hb.group_lt e (mem_of_mem_canon _ _ he),
    fun e he ↦ hb.frame_le e (mem_of_mem_canon _ _ he),
    fun e he ↦ hb.id_le e (mem_of_mem_canon _ _ he)⟩

/-- The class and the rank of a record in the sort. -/
def pairKey (p : GroupKey × Head) : (Bytes ×ₗ ℕ) ×ₗ (ℕ ×ₗ Bytes) := toLex (p.1.ord, p.2.key)

/-- **Sorting** normalises the contents by group, timestamp and id. -/
theorem heads_sort (b : Batch) :
    b.sort.heads = canon pairKey (fun p ↦ p.2.rank) b.heads := by
  rw [heads, heads, canon_map]
  rfl

theorem deduplicated_sort (b : Batch) :
    b.sort.deduplicated + b.sort.heads.length = b.deduplicated + b.heads.length := by
  have hle : b.sort.entries.length ≤ b.entries.length := length_canon_le _ _ _
  simp only [heads, List.length_map]
  change b.deduplicated + (b.entries.length - b.sort.entries.length) + b.sort.entries.length = _
  omega

theorem GroupKey.ord_injective : Function.Injective GroupKey.ord := by
  rintro ⟨s, e⟩ ⟨s', e'⟩ h
  simp only [GroupKey.ord, EmbeddingLike.apply_eq_iff_eq, Prod.mk.injEq] at h
  rw [utf8_injective h.1, UInt32.toNat_inj.1 h.2]

private theorem sources_eq {b : Batch} (hb : b.Ok) :
    b.sources = (cut (fun p ↦ p.1.ord) b.heads).map fun c ↦
      ((c.map Prod.fst).headD ("", 0), c.map Prod.snd) := by
  have hcut : cut (fun p : GroupKey × Head ↦ p.1.ord) b.heads =
      (cut MemEntry.group b.entries).map (List.map fun e ↦ (b.groupKey e, b.head e)) := by
    rw [heads, cut_map]
    refine congrArg _ (cut_congr fun e he e' he' ↦ ?_)
    have hlt := hb.group_lt e he
    have hlt' := hb.group_lt e' he'
    rw [GroupKey.ord_injective.eq_iff, groupKey, groupKey, List.getD_eq_getElem _ _ hlt,
      List.getD_eq_getElem _ _ hlt']
    exact hb.nodup.getElem_inj_iff
  rw [sources, groupRanges, hcut, List.map_map, List.map_map]
  refine List.map_congr_left fun r hr ↦ ?_
  obtain ⟨a, as, rfl, -⟩ := class_eq_of_mem_cut hr
  simp

end Batch

/-! ## The records of each group -/

/-- The records of one group. -/
def ofGroup (g : GroupKey) (hs : List (GroupKey × Head)) : List Head :=
  (hs.filter fun p ↦ p.1 = g).map Prod.snd

theorem mem_ofGroup {g : GroupKey} {hs : List (GroupKey × Head)} {h : Head} :
    h ∈ ofGroup g hs ↔ (g, h) ∈ hs := by
  simp [ofGroup]

/-- One source for each group of `hs`, in the order of the keys, with the records of the group in
normal form. -/
structure SourcesOf (hs : List (GroupKey × Head)) (srcs : List (GroupKey × List Head)) : Prop where
  keys : (srcs.map Prod.fst).Pairwise fun g g' ↦ g.ord < g'.ord
  mem_iff : ∀ g rs, (g, rs) ∈ srcs ↔ rs ≠ [] ∧ rs = canon Head.key Head.rank (ofGroup g hs)

namespace Batch

/-- Records of different arrival are told apart. -/
abbrev Distinct (hs : List (GroupKey × Head)) : Prop := Ranked pairKey (fun p ↦ p.2.rank) hs

theorem Distinct.ofGroup {hs : List (GroupKey × Head)} (h : Distinct hs) (g : GroupKey) :
    Ranked Head.key Head.rank (ofGroup g hs) := by
  intro x hx y hy hk hrank
  rw [mem_ofGroup] at hx hy
  have := h (g, x) hx (g, y) hy (by rw [pairKey, pairKey, hk]) hrank
  exact (Prod.mk.inj this).2

private theorem ofGroup_canon {hs : List (GroupKey × Head)} (h : Distinct hs) (g : GroupKey) :
    ofGroup g (canon pairKey (fun p ↦ p.2.rank) hs) = canon Head.key Head.rank (ofGroup g hs) := by
  have hsorted : (ofGroup g (canon pairKey (fun p ↦ p.2.rank) hs)).Pairwise
      fun x y ↦ x.key < y.key := by
    rw [Orc.ofGroup, List.pairwise_map]
    refine ((pairwise_canon pairKey (fun p ↦ p.2.rank) hs).filter _).imp_of_mem ?_
    intro x y hx hy hlt
    have hxg := (List.mem_filter.1 hx).2
    have hyg := (List.mem_filter.1 hy).2
    simp only [decide_eq_true_eq] at hxg hyg
    rw [pairKey, pairKey, hxg, hyg, Prod.Lex.toLex_lt_toLex] at hlt
    exact hlt.resolve_left (lt_irrefl _) |>.2
  refine eq_of_mem_iff hsorted (pairwise_canon _ _ _) fun x ↦ ?_
  rw [mem_ofGroup, mem_canon h, mem_canon (h.ofGroup g), mem_ofGroup]
  refine and_congr_right fun _ ↦ ⟨fun hmin y hy hk ↦ ?_, fun hmin p hp hk ↦ ?_⟩
  · exact hmin (g, y) (mem_ofGroup.1 hy) (by rw [pairKey, pairKey, hk])
  · obtain ⟨g', y⟩ := p
    simp only [pairKey, EmbeddingLike.apply_eq_iff_eq, Prod.mk.injEq] at hk
    obtain rfl := GroupKey.ord_injective hk.1
    exact hmin y (mem_ofGroup.2 hp) hk.2

/-- **The sources of a sorted batch** are the records of each group, normalised. -/
theorem sources_sort {b : Batch} (hb : b.Ok) (h : Distinct b.heads) :
    SourcesOf b.heads b.sort.sources := by
  have hC := pairwise_canon pairKey (fun p : GroupKey × Head ↦ p.2.rank) b.heads
  have hgroups := ofGroup_canon h
  rw [← heads_sort] at hC
  simp only [← heads_sort] at hgroups
  have hle : b.sort.heads.Pairwise fun p q ↦ p.1.ord ≤ q.1.ord := hC.imp fun {p q} hlt ↦ by
    rw [pairKey, pairKey, Prod.Lex.toLex_lt_toLex] at hlt
    exact hlt.elim le_of_lt fun heq ↦ heq.1.le
  have hsrc : b.sort.sources = (keepFirst (fun p ↦ p.1.ord) b.sort.heads).map fun p ↦
      (p.1, canon Head.key Head.rank (Orc.ofGroup p.1 b.heads)) := by
    rw [sources_eq (ok_sort hb), cut_eq hle, List.map_map]
    refine List.map_congr_left fun p hp ↦ ?_
    have hmem : p ∈ b.sort.heads := (keepFirstFrom_sublist _ _ _).subset hp
    simp only [Function.comp, GroupKey.ord_injective.eq_iff, Prod.mk.injEq]
    refine ⟨?_, hgroups p.1⟩
    have hne : b.sort.heads.filter (fun q ↦ q.1 = p.1) ≠ [] :=
      List.ne_nil_of_mem (List.mem_filter.2 ⟨hmem, by simp⟩)
    obtain ⟨q, qs, hq⟩ := List.exists_cons_of_ne_nil hne
    have hqg : q ∈ b.sort.heads.filter fun q ↦ q.1 = p.1 := hq ▸ List.mem_cons_self
    rw [hq]
    simpa using (List.mem_filter.1 hqg).2
  refine ⟨?_, fun g rs ↦ ?_⟩
  · rw [hsrc, List.map_map, List.pairwise_map]
    exact (pairwise_keepFirstFrom hle none (by simp)).1
  · rw [hsrc, List.mem_map]
    constructor
    · rintro ⟨p, hp, heq⟩
      obtain ⟨rfl, rfl⟩ := Prod.mk.inj heq
      have hmem : p ∈ b.sort.heads := (keepFirstFrom_sublist _ _ _).subset hp
      refine ⟨List.ne_nil_of_mem (a := p.2) ?_, rfl⟩
      rw [← hgroups, mem_ofGroup]
      exact hmem
    · rintro ⟨hne, rfl⟩
      obtain ⟨x, xs, hx⟩ := List.exists_cons_of_ne_nil hne
      have hmem : (g, x) ∈ b.sort.heads := by
        rw [← mem_ofGroup, hgroups, hx]
        exact List.mem_cons_self
      rcases exists_mem_keepFirstFrom (fun p : GroupKey × Head ↦ p.1.ord) hmem none with
        h' | ⟨p, hp, hk⟩
      · cases h'
      · exact ⟨p, hp, by rw [GroupKey.ord_injective hk]⟩

/-- The sources of a batch hold all of its records. -/
theorem length_sources (b : Batch) : (b.sources.flatMap Prod.snd).length = b.heads.length := by
  have hflat : b.sources.flatMap Prod.snd = b.entries.map b.head := by
    rw [sources, groupRanges, List.map_map, List.flatMap_map]
    change ((cut MemEntry.group b.entries).flatMap fun r ↦ r.map b.head) = _
    rw [List.flatMap_def, ← List.map_flatten, flatten_cut]
  rw [hflat, heads, List.length_map, List.length_map]

end Batch

end Orc
