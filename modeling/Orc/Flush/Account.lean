import Mathlib.Data.List.Flatten
import Orc.Flush.Decode

/-!
# Every byte of a segment is accounted for

Decoding takes a segment apart into pieces: frames pushed into the batch, frames rejected, and at
most one tail that cannot be delimited. The pieces tile the bytes after the header (`Tiled`). What
`decodeSegment` does to the disk is to hand the rejected pieces to the sink of `rejects/`, as they
are and in their order, and nothing else (`decodeSegment_eq`).

A sink that has measured the directory knows its size for as long as nothing fails, so a piece is
recorded exactly when it still fits under the cap (`RejectSink.append_works`).

The first part is about bytes and the second about files, and they are kept apart. `pieces` is a
function of the segment and the manifest, defined by the same walk over the frames that decoding
makes; the tiling is proved of it alone, where there are no faults to think of. `decodeSegment_eq`
then says that the program is this function followed by calls of the sink, for every oracle.

## What the sink knows

A sink measures `rejects/` once, at its first piece, and keeps the size from then on. That is right
as long as the sink is the only writer and each of its writes is carried out whole; a write that
fails half way has changed the directory's size and not the sink's. Hence `Knows`, which relates the
two, and the hypothesis `RejectsWork` of the second part. That a piece does not fit is no error: it
is counted, and only its bytes are lost.
-/

namespace Orc

open Bytes Fault Order

/-! ## Pieces -/

/-- What becomes of a piece of a segment. -/
inductive Fate where
  | pushed
  | rejected
  | tail
  deriving DecidableEq, Repr

/-- A piece of a segment. -/
structure Piece where
  fate : Fate
  offset : ℕ
  len : ℕ
  deriving DecidableEq, Repr

/-- The bytes of a piece. -/
def Piece.bytes (buf : Bytes) (p : Piece) : Bytes := (buf.drop p.offset).take p.len

/-- Consecutive pieces, none of them empty, from one offset to another. -/
def Tiled : ℕ → List Piece → ℕ → Prop
  | lo, [], hi => lo = hi
  | lo, p :: ps, hi => p.offset = lo ∧ 0 < p.len ∧ Tiled (lo + p.len) ps hi

/-- The piece an item of the reader covers. -/
def pieceOf (m : Manifest) (buf : Bytes) : Except FrameFault Frame → Piece
  | .ok f =>
    ⟨if matchesSchema ((m.schema f.record.series f.record.epoch).getD []) f.record.keys then .pushed
      else .rejected, f.offset, f.len⟩
  | .error (.badRecord offset len _) => ⟨.rejected, offset, len⟩
  | .error (.unknownSchema offset len _ _) => ⟨.rejected, offset, len⟩
  | .error (.undecodable offset _) => ⟨.tail, offset, buf.length - offset⟩

/-- The pieces of a segment, in the order of the reader. -/
def pieces (crc : Bytes → UInt32) (m : Manifest) (buf : Bytes) : List Piece :=
  (segmentItems crc m buf).map (pieceOf m buf)

/-- The bytes that are not pushed, piece by piece. -/
def refused (buf : Bytes) (ps : List Piece) : List Bytes :=
  (ps.filter fun p ↦ p.fate ≠ .pushed).map (Piece.bytes buf)

theorem Tiled.append {lo mid hi : ℕ} {ps qs : List Piece} (hp : Tiled lo ps mid)
    (hq : Tiled mid qs hi) : Tiled lo (ps ++ qs) hi := by
  induction ps generalizing lo with
  | nil => exact hp ▸ hq
  | cons p ps ih => exact ⟨hp.1, hp.2.1, ih hp.2.2⟩

theorem Tiled.flatten {lo : ℕ} {buf : Bytes} {ps : List Piece} (h : Tiled lo ps buf.length) :
    (ps.map (Piece.bytes buf)).flatten = buf.drop lo := by
  induction ps generalizing lo with
  | nil =>
    obtain rfl := h
    exact (List.drop_length).symm
  | cons p ps ih =>
    obtain ⟨rfl, -, hps⟩ := h
    rw [List.map_cons, List.flatten_cons, ih hps, Piece.bytes, ← List.drop_drop,
      List.take_append_drop]

section Items

variable {crc : Bytes → UInt32} {m : Manifest} {cap : ℕ}

private theorem pieceOf_judge (m : Manifest) (buf : Bytes) (offset : ℕ) {f : Bytes}
    (hf : IsFrame crc cap f) : (pieceOf m buf (judge crc m.keyCount cap offset f)).offset = offset ∧
      (pieceOf m buf (judge crc m.keyCount cap offset f)).len = f.length ∧
      (pieceOf m buf (judge crc m.keyCount cap offset f)).fate ≠ .tail := by
  obtain ⟨p, hp, hlen⟩ := id hf
  unfold judge
  rw [hp]
  dsimp only
  cases m.keyCount p.series p.epoch with
  | none => exact ⟨rfl, rfl, Fate.noConfusion⟩
  | some n =>
    dsimp only
    cases hd : decode crc f n cap with
    | error err => exact ⟨rfl, rfl, Fate.noConfusion⟩
    | ok r =>
      have hprefix := validatePrefix_of_decode hd
      rw [hp] at hprefix
      refine ⟨rfl, ?_, ?_⟩
      · rw [← hlen, Except.ok.inj hprefix]
        rfl
      · dsimp only [pieceOf]
        split_ifs
        · exact Fate.noConfusion
        · exact Fate.noConfusion

private theorem tiled_judgeAll (m : Manifest) (buf : Bytes) (offset : ℕ) {fs : List Bytes}
    (hfs : ∀ f ∈ fs, IsFrame crc cap f) :
    Tiled offset ((judgeAll crc m.keyCount cap offset fs).map (pieceOf m buf))
        (offset + fs.flatten.length) ∧
      ∀ p ∈ (judgeAll crc m.keyCount cap offset fs).map (pieceOf m buf), p.fate ≠ .tail := by
  induction fs generalizing offset with
  | nil => exact ⟨rfl, nofun⟩
  | cons f fs ih =>
    rw [List.forall_mem_cons] at hfs
    obtain ⟨hoffset, hlen, hfate⟩ := pieceOf_judge m buf offset hfs.1
    obtain ⟨htiled, hfates⟩ := ih (offset + f.length) hfs.2
    rw [judgeAll, List.map_cons, List.flatten_cons, List.length_append, ← Nat.add_assoc]
    refine ⟨⟨hoffset, ?_, hlen ▸ htiled⟩, List.forall_mem_cons.2 ⟨hfate, hfates⟩⟩
    rw [hlen]
    exact lt_of_lt_of_le (by decide) hfs.1.length_pos

private theorem map_tailFault (m : Manifest) (buf : Bytes) (offset : ℕ) {rest : Bytes}
    {err : DecodeError} (hne : rest ≠ []) (herr : validatePrefix crc rest cap = .error err) :
    (tailFault crc cap offset rest).map (pieceOf m buf) =
      [⟨.tail, offset, buf.length - offset⟩] := by
  cases rest with
  | nil => exact absurd rfl hne
  | cons c cs =>
    rw [tailFault, herr]
    · rfl
    · exact hne

/-- **The pieces of a segment** tile it behind its header, and only the last can be a tail. -/
theorem pieces_tiled {buf : Bytes} {id : ℕ} (hheader : parseSegmentHeader buf = .ok id) :
    ∃ body tail, pieces crc m buf = body ++ tail ∧
      Tiled segmentHeaderBytes (body ++ tail) buf.length ∧ (∀ p ∈ body, p.fate ≠ .tail) ∧
      (tail = [] ∨ ∃ p, tail = [p] ∧ p.fate = .tail) := by
  obtain ⟨fs, rest, hcut⟩ := exists_cut crc buf.length (buf.drop segmentHeaderBytes)
  obtain ⟨htiled, hfates⟩ := tiled_judgeAll m buf segmentHeaderBytes hcut.isFrame
  have hbuf := congrArg List.length hcut.eq_append
  rw [List.length_drop, List.length_append] at hbuf
  have hle := segmentHeaderBytes_le_length hheader
  refine ⟨_, (tailFault crc buf.length (segmentHeaderBytes + fs.flatten.length) rest).map
    (pieceOf m buf), ?_, htiled.append ?_, hfates, ?_⟩
  · rw [pieces, segmentItems_eq hheader hcut, List.map_append]
  · by_cases hne : rest = []
    · subst hne
      rw [List.length_nil] at hbuf
      change _ + _ = _
      omega
    · have hpos := List.length_pos_of_ne_nil hne
      obtain ⟨err, herr⟩ := hcut.rest_eq.resolve_left hne
      rw [map_tailFault m buf _ hne herr]
      refine ⟨rfl, ?_, ?_⟩
      · dsimp only
        omega
      · change _ + _ = _
        dsimp only
        omega
  · by_cases hne : rest = []
    · subst hne
      exact .inl rfl
    · obtain ⟨err, herr⟩ := hcut.rest_eq.resolve_left hne
      rw [map_tailFault m buf _ hne herr]
      exact .inr ⟨_, rfl, rfl⟩

end Items

/-! ## What decoding does -/

/-- An accepted frame goes into the batch. -/
def Batch.accept (b : Batch) (a : Accepted) : Batch :=
  b.push a.group a.record.ts a.record.id (idOffset a.record.series) a.arrival a.frame

/-- Hand byte strings to the sink, one after the other. -/
def RejectSink.appendAll (s : RejectSink) (segment : ℕ) (bs : List Bytes) : Io RejectSink :=
  bs.foldlM (fun s b ↦ s.append segment b) s

/-- The state after pieces of a segment: the counts, with what is on record of schemas and
series. -/
def Decoded.after (out : Decoded) (buf : Bytes) (ps : List Piece)
    (schemas : List (GroupKey × List KeyDef)) (touched : List String) : Decoded :=
  { out with
    schemas, touched
    rows := out.rows + (ps.filter fun p ↦ p.fate = .pushed).length
    framesRejected := out.framesRejected + (refused buf ps).length
    bytesSkipped := out.bytesSkipped + ((ps.filter fun p ↦ p.fate = .tail).map Piece.len).sum }

section Decode

variable {crc : Bytes → UInt32} {m : Manifest} {segment : ℕ} {buf : Bytes}

/-- What the cache of schemas holds is what the manifest says. -/
def CacheSound (m : Manifest) (cache : List (GroupKey × List KeyDef)) : Prop :=
  ∀ g keys, cache.lookup g = some keys → keys = (m.schema g.1 g.2).getD []

theorem refused_cons (p : Piece) (ps : List Piece) :
    refused buf (p :: ps) = refused buf [p] ++ refused buf ps := by
  rw [refused, ← List.singleton_append, List.filter_append, List.map_append]
  rfl

private theorem appendAll_append (s : RejectSink) (bs cs : List Bytes) :
    s.appendAll segment (bs ++ cs) =
      s.appendAll segment bs >>= fun s ↦ s.appendAll segment cs :=
  List.foldlM_append

private theorem appendAll_singleton (s : RejectSink) (b : Bytes) :
    s.appendAll segment [b] = s.append segment b :=
  bind_pure _

theorem Decoded.after_cons (out : Decoded) (p : Piece) (ps : List Piece)
    (schemas schemas' : List (GroupKey × List KeyDef)) (touched touched' : List String) :
    (out.after buf [p] schemas touched).after buf ps schemas' touched' =
      out.after buf (p :: ps) schemas' touched' := by
  simp only [Decoded.after, refused_cons p ps, List.length_append, Nat.add_assoc]
  rw [← List.singleton_append (l := ps)]
  simp only [List.filter_append, List.length_append, List.map_append, List.sum_append]

private theorem reject_eq {p : Piece} (hp : p.fate ≠ .pushed) {out out' : Decoded}
    {rejects : RejectSink} {batch : Batch} {bytes : Bytes} (hbytes : bytes = p.bytes buf)
    (hout : { out with framesRejected := out.framesRejected + 1 } = out') :
    (⟨rejects, batch, out⟩ : DecodeState).reject segment bytes = do
      let rejects ← rejects.appendAll segment (refused buf [p])
      return ⟨rejects, batch, out'⟩ := by
  have hrefused : refused buf [p] = [bytes] := by
    rw [refused, List.filter_singleton, decide_eq_true hp, hbytes]
    rfl
  rw [hrefused, appendAll_singleton, DecodeState.reject, hout]

/-- **One turn of the loop**, as a program: the sink is given what is refused, and the rest is kept
in memory. -/
theorem decodeItem_eq (segment : ℕ) (buf : Bytes) (item : Except FrameFault Frame) {out : Decoded}
    (hcache : CacheSound m out.schemas) :
    ∃ schemas touched, CacheSound m schemas ∧ ∀ rejects batch,
      decodeItem segment buf m ⟨rejects, batch, out⟩ item = do
        let rejects ← rejects.appendAll segment (refused buf [pieceOf m buf item])
        return ⟨rejects, (acceptItem segment buf m item).toList.foldl Batch.accept batch,
          out.after buf [pieceOf m buf item] schemas touched⟩ := by
  cases item with
  | error fault =>
    refine ⟨out.schemas, out.touched, hcache, fun rejects batch ↦ ?_⟩
    cases fault with
    | badRecord offset len err => exact reject_eq Fate.noConfusion rfl rfl
    | unknownSchema offset len series epoch => exact reject_eq Fate.noConfusion rfl rfl
    | undecodable offset err =>
      have htail : buf.drop offset = Piece.bytes buf ⟨.tail, offset, buf.length - offset⟩ := by
        rw [Piece.bytes, List.take_of_length_le (List.length_drop ..).le]
      refine reject_eq Fate.noConfusion htail ?_
      rw [List.length_drop]
      rfl
  | ok f =>
    obtain ⟨hkeys, hcache', -⟩ := cachedKeys_spec f.record.series f.record.epoch hcache
    refine ⟨(cachedKeys out.schemas m f.record.series f.record.epoch).2,
      if f.record.series ∈ out.touched then out.touched else out.touched ++ [f.record.series],
      hcache', fun rejects batch ↦ ?_⟩
    rw [decodeItem]
    simp only [hkeys]
    by_cases hmatch : matchesSchema ((m.schema f.record.series f.record.epoch).getD [])
        f.record.keys = true
    · simp only [acceptItem, pieceOf, hmatch]
      rfl
    · rw [Bool.not_eq_true] at hmatch
      have hpiece : pieceOf m buf (.ok f) = ⟨.rejected, f.offset, f.len⟩ := by
        rw [pieceOf, hmatch, if_neg Bool.false_ne_true]
      have haccept : acceptItem segment buf m (.ok f) = none := by
        rw [acceptItem, hmatch, if_neg Bool.false_ne_true]
      rw [hmatch, haccept, hpiece, if_pos (by simp)]
      exact reject_eq Fate.noConfusion rfl rfl

private theorem foldlM_decodeItem_eq (segment : ℕ) (buf : Bytes)
    (items : List (Except FrameFault Frame)) {out : Decoded}
    (hcache : CacheSound m out.schemas) :
    ∃ schemas touched, ∀ rejects batch,
      items.foldlM (decodeItem segment buf m) ⟨rejects, batch, out⟩ = do
        let rejects ← rejects.appendAll segment (refused buf (items.map (pieceOf m buf)))
        return ⟨rejects, (items.filterMap (acceptItem segment buf m)).foldl Batch.accept batch,
          out.after buf (items.map (pieceOf m buf)) schemas touched⟩ := by
  induction items generalizing out with
  | nil => exact ⟨out.schemas, out.touched, fun rejects batch ↦ rfl⟩
  | cons item items ih =>
    obtain ⟨schemas, touched, hcache', hitem⟩ :=
      decodeItem_eq segment buf item hcache
    obtain ⟨schemas', touched', hitems⟩ :=
      @ih (out.after buf [pieceOf m buf item] schemas touched) hcache'
    refine ⟨schemas', touched', fun rejects batch ↦ ?_⟩
    have haccept : (item :: items).filterMap (acceptItem segment buf m) =
        (acceptItem segment buf m item).toList ++ items.filterMap (acceptItem segment buf m) := by
      rw [List.filterMap_cons]
      cases acceptItem segment buf m item <;> rfl
    rw [List.foldlM_cons, hitem, bind_assoc, List.map_cons, haccept, List.foldl_append,
      refused_cons _ (items.map _), appendAll_append, bind_assoc]
    simp only [pure_bind, hitems, Decoded.after_cons]

/-- **Decoding a segment** gives the pieces that are not pushed to the sink, in order, and does
nothing else to the disk. -/
theorem decodeSegment_eq (crc : Bytes → UInt32) (m : Manifest) (segment : ℕ) {id : ℕ}
    (hheader : parseSegmentHeader buf = .ok id) :
    ∃ schemas touched, ∀ rejects batch,
      decodeSegment crc segment buf m rejects batch = do
        let rejects ← rejects.appendAll segment (refused buf (pieces crc m buf))
        return ⟨rejects, (accepted crc m segment buf).foldl Batch.accept batch,
          ({} : Decoded).after buf (pieces crc m buf) schemas touched⟩ := by
  obtain ⟨schemas, touched, hitems⟩ := foldlM_decodeItem_eq segment buf (segmentItems crc m buf)
    (show CacheSound m ({} : Decoded).schemas from nofun)
  refine ⟨schemas, touched, fun rejects batch ↦ ?_⟩
  rw [pieces, accepted, ← hitems, segmentItems, decodeSegment, SegmentReader.new, hheader]
  rfl

end Decode

/-! ## The sink -/

/-- How many bytes `rejects/` holds. -/
def rejectedBytes (r : Std.ExtTreeMap ℕ Bytes) : ℕ := (r.toList.map fun f ↦ f.2.length).sum

/-- Record a byte string if it still fits under the cap. -/
def record (cap segment : ℕ) (r : Std.ExtTreeMap ℕ Bytes) (b : Bytes) : Std.ExtTreeMap ℕ Bytes :=
  if rejectedBytes r + b.length ≤ cap then r.insert segment (r.getD segment [] ++ b) else r

private theorem toList_perm_erase {r : Std.ExtTreeMap ℕ Bytes} {k : ℕ} {v : Bytes}
    (h : r[k]? = some v) : r.toList.Perm ((k, v) :: (r.erase k).toList) := by
  have hnodup : ∀ r : Std.ExtTreeMap ℕ Bytes, r.toList.Nodup := fun r ↦
    r.distinct_keys_toList.imp fun hne heq ↦ hne (by rw [heq, compare_eq_iff_eq])
  have hmem : ∀ {r : Std.ExtTreeMap ℕ Bytes} {j w}, (j, w) ∈ r.toList ↔ r[j]? = some w :=
    Std.ExtTreeMap.mem_toList_iff_getElem?_eq_some
  refine (List.perm_ext_iff_of_nodup (hnodup r) (List.nodup_cons.2 ⟨?_, hnodup _⟩)).2 ?_
  · rw [hmem, Std.ExtTreeMap.getElem?_erase_self]
    nofun
  · rintro ⟨j, w⟩
    rw [List.mem_cons, hmem, hmem, Std.ExtTreeMap.getElem?_erase, Prod.mk.injEq]
    by_cases hjk : k = j
    · subst hjk
      simp [h, eq_comm]
    · rw [if_neg (by rwa [compare_eq_iff_eq])]
      simp [Ne.symm hjk]

private theorem rejectedBytes_of_getElem? {r : Std.ExtTreeMap ℕ Bytes} {k : ℕ} {v : Bytes}
    (h : r[k]? = some v) : rejectedBytes r = v.length + rejectedBytes (r.erase k) := by
  rw [rejectedBytes, ((toList_perm_erase h).map _).sum_nat, List.map_cons, List.sum_cons]
  rfl

/-- Appending to a file adds to the whole. -/
theorem rejectedBytes_insert (r : Std.ExtTreeMap ℕ Bytes) (k : ℕ) (b : Bytes) :
    rejectedBytes (r.insert k (r.getD k [] ++ b)) = rejectedBytes r + b.length := by
  have herase : (r.insert k (r.getD k [] ++ b)).erase k = r.erase k := by
    refine Std.ExtTreeMap.ext_getElem? fun j ↦ ?_
    rw [Std.ExtTreeMap.getElem?_erase, Std.ExtTreeMap.getElem?_erase]
    split_ifs with hjk
    · rfl
    · rw [Std.ExtTreeMap.getElem?_insert, if_neg hjk]
  rw [rejectedBytes_of_getElem? (Std.ExtTreeMap.getElem?_insert_self), herase, List.length_append]
  cases h : r[k]? with
  | some v =>
    rw [rejectedBytes_of_getElem? h, Std.ExtTreeMap.getD_eq_getD_getElem?, h, Option.getD_some]
    omega
  | none =>
    have hsame : r.erase k = r := by
      refine Std.ExtTreeMap.ext_getElem? fun j ↦ ?_
      rw [Std.ExtTreeMap.getElem?_erase]
      split_ifs with hjk
      · rw [← compare_eq_iff_eq.1 hjk, h]
      · rfl
    rw [hsame, Std.ExtTreeMap.getD_eq_getD_getElem?, h, Option.getD_none, List.length_nil]
    omega

private theorem rejectedBytes_record_le {cap segment : ℕ} {r : Std.ExtTreeMap ℕ Bytes} (b : Bytes)
    (h : rejectedBytes r ≤ cap) : rejectedBytes (record cap segment r b) ≤ cap := by
  unfold record
  split_ifs with hfits
  · rwa [rejectedBytes_insert]
  · exact h

private theorem rejectedBytes_foldl_le {cap segment : ℕ} {r : Std.ExtTreeMap ℕ Bytes}
    (bs : List Bytes)
    (h : rejectedBytes r ≤ cap) : rejectedBytes (bs.foldl (record cap segment) r) ≤ cap := by
  induction bs generalizing r with
  | nil => exact h
  | cons b bs ih => exact ih (rejectedBytes_record_le b h)

/-- No operation on `rejects/` fails. -/
structure RejectsWork (o : Oracle Op) : Prop where
  measure : ¬ Failed o .rejectsMeasure
  mkdir : ¬ Failed o .rejectsMkdir
  create : ¬ Failed o .rejectsOpen
  write : ¬ Failed o .rejectsWrite

theorem rejectsWork_noFault : RejectsWork noFault :=
  ⟨not_failed_noFault, not_failed_noFault, not_failed_noFault, not_failed_noFault⟩

namespace RejectSink

variable {segment : ℕ} {d : Disk}

/-- The sink knows how much `rejects/` holds, or has not looked yet. -/
def Knows (s : RejectSink) (r : Std.ExtTreeMap ℕ Bytes) : Prop :=
  s.used = none ∨ s.used = some (rejectedBytes r)

section Works

variable {o : Oracle Op} {s : RejectSink}

theorem measured_works (hmeasure : ¬ Failed o .rejectsMeasure) (hs : s.Knows d.rejects) :
    Triple o (· = d) s.measured (fun used d' ↦ d' = d ∧ used = rejectedBytes d.rejects)
      (fun _ _ ↦ False) (· = d) := by
  rw [measured]
  rcases hs with hs | hs
  · rw [hs]
    refine .bind (Q := fun r d' ↦ d' = d ∧ r = .ok (rejectedBytes d.rejects))
      (.attempt (Io.read_triple ?_ ?_ ?_ fun _ _ _ hd _ ↦ hd)) fun r ↦ ?_
    · rintro _ n rfl hn
      exact ⟨rfl, hn.symm⟩
    · rintro _ err rfl ⟨⟩
    · exact fun _ t n _ hfail ↦ absurd ⟨t, n, hfail⟩ hmeasure
    · refine .intro fun d' hd' ↦ ?_
      obtain ⟨rfl, rfl⟩ := hd'
      exact .ret fun _ hd ↦ ⟨hd, rfl⟩
  · rw [hs]
    exact .ret fun _ hd ↦ ⟨hd, rfl⟩

theorem write_works (ho : RejectsWork o) (segment : ℕ) (b : Bytes) :
    Triple o (· = d) (write segment b)
      (fun _ d' ↦ d' =
        { d with rejects := d.rejects.insert segment (d.rejects.getD segment [] ++ b) })
      (fun _ _ ↦ False) (fun _ ↦ True) := by
  refine .bind (Q := fun _ d' ↦ d' = d) (Io.step_triple (fun _ _ hd _ ↦ hd)
    (fun _ t n _ hfail ↦ absurd ⟨t, n, hfail⟩ ho.mkdir) fun _ _ _ _ _ ↦ trivial) fun _ ↦
    .bind (Q := fun _ d' ↦ d' =
        { d with rejects := d.rejects.insert segment (d.rejects.getD segment []) })
      (Io.step_triple ?_ (fun _ t n _ hfail ↦ absurd ⟨t, n, hfail⟩ ho.create)
        fun _ _ _ _ _ ↦ trivial) fun _ ↦
    .bind (Q := fun q d' ↦ q.2 = true ∧
        d' = { d with rejects := d.rejects.insert segment (d.rejects.getD segment [] ++ b) })
      (.write ?_ (fun _ t n _ hfail ↦ absurd ⟨t, n, hfail⟩ ho.write) fun _ _ _ _ _ ↦ trivial)
      fun q ↦ .intro fun d' hd' ↦ ?_
  · rintro _ _ rfl -
    rfl
  · rintro _ _ rfl -
    refine ⟨rfl, ?_⟩
    dsimp only
    rw [Std.ExtTreeMap.getD_insert_self, List.take_length]
    congr 1
    refine Std.ExtTreeMap.ext_getElem? fun j ↦ ?_
    rw [Std.ExtTreeMap.getElem?_insert, Std.ExtTreeMap.getElem?_insert,
      Std.ExtTreeMap.getElem?_insert]
    split_ifs <;> rfl
  · obtain ⟨n, whole⟩ := q
    obtain ⟨rfl, rfl⟩ := hd'
    exact .ret fun _ hd ↦ hd

/-- **Where no operation fails** a byte string is recorded exactly when it still fits. -/
theorem append_works (ho : RejectsWork o) (hs : s.Knows d.rejects) (segment : ℕ) (b : Bytes) :
    Triple o (· = d) (s.append segment b)
      (fun s' d' ↦
        (s.cap < min (rejectedBytes d.rejects + b.length) u64Max ∧
          s' = ⟨s.cap, some (rejectedBytes d.rejects)⟩ ∧ d' = d) ∨
        (¬ s.cap < min (rejectedBytes d.rejects + b.length) u64Max ∧
          s' = ⟨s.cap, some (rejectedBytes d.rejects + b.length)⟩ ∧
          d' = { d with rejects := d.rejects.insert segment (d.rejects.getD segment [] ++ b) }))
      (fun _ _ ↦ False) (fun _ ↦ True) := by
  refine .bind ((measured_works ho.measure hs).exits (fun _ _ ↦ id) fun _ _ ↦ trivial) fun used ↦
    .intro fun d' hd' ↦ ?_
  obtain ⟨rfl, rfl⟩ := hd'
  by_cases hover : s.cap < min (rejectedBytes d'.rejects + b.length) u64Max
  · rw [if_pos hover]
    exact .ret fun _ hd ↦ .inl ⟨hover, rfl, hd⟩
  · rw [if_neg hover]
    refine .bind (Q := fun q d'' ↦ q = .ok () ∧ d'' = { d' with
        rejects := d'.rejects.insert segment (d'.rejects.getD segment [] ++ b) })
      (.attempt ((write_works ho segment b).conseq (fun _ ↦ id) (fun _ _ hd ↦ ⟨rfl, hd⟩)
        (fun _ _ ↦ False.elim) fun _ ↦ id)) fun q ↦ .intro fun d'' hd'' ↦ ?_
    obtain ⟨rfl, rfl⟩ := hd''
    exact .ret fun _ hd ↦ .inr ⟨hover, rfl, hd⟩

end Works

theorem append_noFault {s : RejectSink} {b : Bytes} (hs : s.Knows d.rejects)
    (hcap : s.cap < u64Max ∨ rejectedBytes d.rejects + b.length ≤ s.cap) :
    Triple noFault (· = d) (s.append segment b)
      (fun s' d' ↦ d' = { d with rejects := record s.cap segment d.rejects b } ∧ s'.cap = s.cap ∧
        s'.Knows d'.rejects)
      (fun _ _ ↦ False) (fun _ ↦ False) := by
  -- sizes are 64-bit numbers, so a cap of the largest of them is no cap
  refine ((append_works rejectsWork_noFault hs segment b).uncrashed not_crashes_noFault).post ?_
  rintro s' d' (⟨hover, rfl, rfl⟩ | ⟨hfits, rfl, rfl⟩)
  · rw [record, if_neg (by omega)]
    exact ⟨rfl, rfl, .inr rfl⟩
  · rw [record, if_pos (by omega)]
    refine ⟨rfl, rfl, .inr ?_⟩
    rw [rejectedBytes_insert]

theorem appendAll_noFault {s : RejectSink} {bs : List Bytes} (hs : s.Knows d.rejects)
    (hcap : s.cap < u64Max ∨ rejectedBytes d.rejects + bs.flatten.length ≤ s.cap) :
    Triple noFault (· = d) (s.appendAll segment bs)
      (fun s' d' ↦ d' = { d with rejects := bs.foldl (record s.cap segment) d.rejects } ∧
        s'.cap = s.cap ∧ s'.Knows d'.rejects)
      (fun _ _ ↦ False) (fun _ ↦ False) := by
  induction bs generalizing s d with
  | nil =>
    refine .ret ?_
    rintro _ rfl
    exact ⟨rfl, rfl, hs⟩
  | cons b bs ih =>
    rw [List.flatten_cons, List.length_append] at hcap
    refine .bind (append_noFault hs (by omega)) fun s' ↦ .intro fun d' hd' ↦ ?_
    obtain ⟨rfl, hsame, hs'⟩ := hd'
    have hle : rejectedBytes (record s.cap segment d.rejects b) ≤
        rejectedBytes d.rejects + b.length := by
      unfold record
      split_ifs
      · exact (rejectedBytes_insert ..).le
      · exact Nat.le_add_right _ _
    refine (ih hs' ?_).post fun s'' d'' hd'' ↦ ?_
    · rw [hsame]
      dsimp only
      omega
    · rw [hsame] at hd''
      exact hd''

end RejectSink

/-! ## The whole segment -/

private theorem accepted_eq_pushed (crc : Bytes → UInt32) (m : Manifest) (segment : ℕ)
    (buf : Bytes) : (accepted crc m segment buf).map (fun a ↦ (a.arrival, a.frame)) =
      ((pieces crc m buf).filter fun p ↦ p.fate = .pushed).map
        fun p ↦ ((segment, p.offset), p.bytes buf) := by
  rw [accepted, pieces]
  induction segmentItems crc m buf with
  | nil => rfl
  | cons item items ih =>
    cases item with
    | error fault => cases fault <;> exact ih
    | ok f =>
      by_cases hmatch : matchesSchema ((m.schema f.record.series f.record.epoch).getD [])
          f.record.keys = true
      · have haccept : acceptItem segment buf m (.ok f) =
            some ⟨f.record, (segment, f.offset), (buf.drop f.offset).take f.len⟩ := by
          rw [acceptItem, if_pos hmatch]
        have hpiece : pieceOf m buf (.ok f) = ⟨.pushed, f.offset, f.len⟩ := by
          rw [pieceOf, if_pos hmatch]
        rw [List.filterMap_cons_some haccept, List.map_cons, List.map_cons, hpiece, ih]
        rfl
      · have haccept : acceptItem segment buf m (.ok f) = none := by rw [acceptItem, if_neg hmatch]
        have hpiece : pieceOf m buf (.ok f) = ⟨.rejected, f.offset, f.len⟩ := by
          rw [pieceOf, if_neg hmatch]
        rw [List.filterMap_cons_none haccept, List.map_cons, hpiece, ih]
        rfl

section Counts

variable {buf : Bytes} {body tail : List Piece}

private theorem filter_fate_tail (htail : ∀ p ∈ tail, p.fate = .tail) {fate : Fate}
    (hfate : fate ≠ .tail) :
    ((body ++ tail).filter fun p ↦ p.fate = fate) = body.filter fun p ↦ p.fate = fate := by
  have hnone : tail.filter (fun p ↦ p.fate = fate) = [] :=
    List.filter_eq_nil_iff.2 fun p hp h ↦
      hfate ((of_decide_eq_true h).symm.trans (htail p hp))
  rw [List.filter_append, hnone, List.append_nil]

private theorem length_refused (hbody : ∀ p ∈ body, p.fate ≠ .tail)
    (htail : ∀ p ∈ tail, p.fate = .tail) : (refused buf (body ++ tail)).length =
      (body.filter fun p ↦ p.fate = .rejected).length + tail.length := by
  rw [refused, List.length_map, List.filter_append, List.length_append]
  congr 2
  · refine List.filter_congr fun p hp ↦ ?_
    have := hbody p hp
    cases h : p.fate <;> simp_all
  · refine List.filter_eq_self.2 fun p hp ↦ ?_
    simp [htail p hp]

private theorem skipped_eq (hbody : ∀ p ∈ body, p.fate ≠ .tail)
    (htail : ∀ p ∈ tail, p.fate = .tail) :
    (((body ++ tail).filter fun p ↦ p.fate = .tail).map Piece.len).sum =
      (tail.map Piece.len).sum := by
  have hnone : body.filter (fun p ↦ p.fate = .tail) = [] :=
    List.filter_eq_nil_iff.2 fun p hp h ↦ hbody p hp (of_decide_eq_true h)
  have hall : tail.filter (fun p ↦ p.fate = .tail) = tail :=
    List.filter_eq_self.2 fun p hp ↦ decide_eq_true (htail p hp)
  rw [List.filter_append, hnone, hall, List.nil_append]

end Counts

private theorem length_flatten_refused_le {buf : Bytes} {lo : ℕ} {ps : List Piece}
    (h : Tiled lo ps buf.length) : (refused buf ps).flatten.length ≤ buf.length := by
  have hle : (refused buf ps).flatten.length ≤ (ps.map (Piece.bytes buf)).flatten.length :=
    (List.filter_sublist.map _).flatten.length_le
  rw [h.flatten, List.length_drop] at hle
  omega

/-- **No byte of a segment disappears.** What is pushed, what is rejected and the tail tile the
bytes after the header; the counts are the numbers of pieces and the length of the tail. Decoding
gives the sink the rejected pieces and the tail, as they stand in the segment, and touches nothing
else. Where no operation fails, the sink records each of them that still fits under the cap, and
never exceeds it. Sizes are 64-bit numbers, so a cap of the largest of them is not a cap. -/
theorem segment_accounted (crc : Bytes → UInt32) (m : Manifest) (segment : ℕ) {buf : Bytes} {id : ℕ}
    (hheader : parseSegmentHeader buf = .ok id) :
    ∃ body tail, pieces crc m buf = body ++ tail ∧
      Tiled segmentHeaderBytes (body ++ tail) buf.length ∧
      (∀ p ∈ body, p.fate ≠ .tail) ∧ (tail = [] ∨ ∃ p, tail = [p] ∧ p.fate = .tail) ∧
      (accepted crc m segment buf).map (fun a ↦ (a.arrival, a.frame)) =
        (body.filter fun p ↦ p.fate = .pushed).map (fun p ↦ ((segment, p.offset), p.bytes buf)) ∧
      (∃ schemas touched, ∀ rejects batch,
        decodeSegment crc segment buf m rejects batch = do
          let rejects ← rejects.appendAll segment (refused buf (body ++ tail))
          return {
            rejects
            batch := (accepted crc m segment buf).foldl Batch.accept batch
            out := {
              schemas, touched
              rows := (body.filter fun p ↦ p.fate = .pushed).length
              framesRejected := (body.filter fun p ↦ p.fate = .rejected).length + tail.length
              bytesSkipped := (tail.map Piece.len).sum } }) ∧
      ∀ (rejects : RejectSink) (batch : Batch) (w : World Disk), rejects.Knows w.disk.rejects →
        (rejects.cap < u64Max ∨ rejectedBytes w.disk.rejects + buf.length ≤ rejects.cap) →
        ∃ s w', decodeSegment crc segment buf m rejects batch noFault w = (.ok s, w') ∧
          w'.disk = { w.disk with
            rejects := (refused buf (body ++ tail)).foldl (record rejects.cap segment)
              w.disk.rejects } ∧
          s.rejects.Knows w'.disk.rejects ∧
          (rejectedBytes w.disk.rejects ≤ rejects.cap →
            rejectedBytes w'.disk.rejects ≤ rejects.cap) := by
  obtain ⟨body, tail, hpieces, htiled, hbody, htail⟩ := pieces_tiled (m := m) hheader
  have htail' : ∀ p ∈ tail, p.fate = .tail := by
    rcases htail with rfl | ⟨p, rfl, hp⟩
    · nofun
    · exact fun q hq ↦ List.mem_singleton.1 hq ▸ hp
  obtain ⟨schemas, touched, hdecode⟩ := decodeSegment_eq crc m segment hheader
  rw [hpieces] at hdecode
  refine ⟨body, tail, hpieces, htiled, hbody, htail, ?_, ⟨schemas, touched, fun rejects batch ↦ ?_⟩,
    fun rejects batch w hknows hcap ↦ ?_⟩
  · rw [accepted_eq_pushed, hpieces, filter_fate_tail htail' Fate.noConfusion]
  · rw [hdecode, Decoded.after, filter_fate_tail htail' Fate.noConfusion,
      length_refused hbody htail', skipped_eq hbody htail']
    simp only [Nat.zero_add]
  · have hlen := length_flatten_refused_le htiled
    have hsink : Triple noFault (· = w.disk) (decodeSegment crc segment buf m rejects batch)
        (fun s d ↦ d = { w.disk with
          rejects := (refused buf (body ++ tail)).foldl (record rejects.cap segment)
            w.disk.rejects } ∧ s.rejects.Knows d.rejects) (fun _ _ ↦ False) (fun _ ↦ False) := by
      rw [hdecode]
      exact .bind (RejectSink.appendAll_noFault hknows (by omega)) fun s ↦
        .ret fun d hd ↦ ⟨hd.1, hd.2.2⟩
    obtain ⟨s, w', hrun, hdisk, hs⟩ :=
      hsink.returns (fun _ _ ↦ not_false) not_crashes_noFault rfl
    refine ⟨s, w', hrun, hdisk, hs, fun hle ↦ ?_⟩
    rw [hdisk]
    exact rejectedBytes_foldl_le _ hle

private def knownFrame : Bytes := frameBytes crc32 (payloadBytes ⟨7, 0, "t", "a", [], [], ""⟩)

private def unknownFrame : Bytes := frameBytes crc32 (payloadBytes ⟨8, 0, "u", "a", [], [], ""⟩)

private def mixedSegment : Bytes := encodeSegmentHeader 7 ++ knownFrame ++ unknownFrame ++ [1, 2, 3]

private def knownManifest : Manifest := { series := {("t", [⟨0, []⟩])} }

/-- A frame of a known series, one of an unknown series and three bytes: the first is pushed, and
`rejects/` receives the other two pieces. -/
theorem segment_accounted_mixed :
    ∃ body tail, pieces crc32 knownManifest mixedSegment = body ++ tail ∧
      (body ++ tail).map Piece.fate = [.pushed, .rejected, .tail] ∧
      Tiled segmentHeaderBytes (body ++ tail) mixedSegment.length ∧
      (accepted crc32 knownManifest 7 mixedSegment).map Accepted.frame = [knownFrame] ∧
      ∃ s w', decodeSegment crc32 7 mixedSegment knownManifest ⟨1000, none⟩ {} noFault ⟨{}, 0⟩ =
          (.ok s, w') ∧
        w'.disk.rejects[7]? = some (unknownFrame ++ [1, 2, 3]) := by
  obtain ⟨body, tail, hpieces, htiled, -, -, -, -, hsink⟩ := segment_accounted crc32 knownManifest 7
    (show parseSegmentHeader mixedSegment = .ok 7 by decide +kernel)
  obtain ⟨s, w', hrun, hdisk, -⟩ := hsink ⟨1000, none⟩ {} ⟨{}, 0⟩ (.inl rfl) (.inl (by decide))
  refine ⟨body, tail, hpieces, ?_, htiled, by decide +kernel, s, w', hrun, ?_⟩
  · rw [← hpieces]
    decide +kernel
  · rw [hdisk, ← hpieces]
    decide +kernel

end Orc
