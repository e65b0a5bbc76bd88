import ElysiumKV.Lib.Decimal
import ElysiumKV.SingleWriter

/-!
# Edits in chunks

The DynamoDB catalog splits an edit into items, each with their number; fewer items are a
half-written edit, reported as corrupt. `get_chunked` sorts them by keys with a four-digit index,
which is their order up to `maxSortedChunks`. Pointer and snapshots are those of `Catalog`.
-/

namespace ElysiumKV

open Program Program.Prog List VersionSet

/-- `kChunkPayloadBytes` -/
def chunkPayloadBytes : ℕ := 300 * 1024

/-- An item of the table that holds a chunk. -/
structure ChunkItem (ι : Type) where
  payload : Bytes
  totalChunks : ℕ
  writer : ℕ
  label : ι

namespace ChunkItem

variable {ι : Type}

/-- The number of chunks of the bytes. -/
def chunks (bytes : Bytes) : ℕ :=
  max ((bytes.length + chunkPayloadBytes - 1) / chunkPayloadBytes) 1

/-- The item `put_chunked` puts at an index. -/
def chunk (writer : ℕ) (bytes : Bytes) (label : ι) (index : ℕ) : ChunkItem ι where
  payload := (bytes.drop (index * chunkPayloadBytes)).take chunkPayloadBytes
  totalChunks := chunks bytes
  writer := writer
  label := label

/-- `put_once` at the sort key of an index. -/
def putOnce (items : List (ChunkItem ι)) (index : ℕ) (item : ChunkItem ι) :
    Status × List (ChunkItem ι) :=
  if index < items.length then (.config, items) else (.ok, items ++ [item])

/-- The loop of `put_chunked`, `count` chunks to go. -/
def putChunkedLoop (writer : ℕ) (bytes : Bytes) (label : ι) :
    ℕ → ℕ → List (ChunkItem ι) → Status × List (ChunkItem ι)
  | 0, _, items => (.ok, items)
  | count + 1, index, items =>
    match putOnce items index (chunk writer bytes label index) with
    | (.ok, items) => putChunkedLoop writer bytes label count (index + 1) items
    | (status, items) => (status, items)

/-- `put_chunked`. -/
def putChunked (writer : ℕ) (bytes : Bytes) (label : ι) (items : List (ChunkItem ι)) :
    Status × List (ChunkItem ι) :=
  putChunkedLoop writer bytes label (chunks bytes) 0 items

/-- `is_partial`. -/
def isPartial : List (ChunkItem ι) → Bool
  | [] => false
  | item :: items => item.totalChunks ≠ 0 && item.totalChunks ≠ (item :: items).length

/-- `written_by_us` at the first chunk. -/
def writtenByUs (writer : ℕ) : List (ChunkItem ι) → Bool
  | [] => true
  | item :: _ => item.writer = writer

/-- `put_edit` on the items. -/
def putEditChunked (writer : ℕ) (bytes : Bytes) (label : ι) (items : List (ChunkItem ι)) :
    Status × List (ChunkItem ι) :=
  let first := putChunked writer bytes label items
  if first.1 ≠ .config then first
  else if isPartial first.2 = false then (.config, first.2)
  else if writtenByUs writer first.2 = false then (.config, first.2)
  else putChunked writer bytes label []

/-- `get_chunked` of sorted items. -/
def getChunked : List (ChunkItem ι) → Except Status (Object ι)
  | [] => .error .notFound
  | item :: items =>
    if item.totalChunks ≠ 0 ∧ item.totalChunks ≠ (item :: items).length then .error .corrupt
    else .ok ⟨(item :: items).flatMap payload, item.label⟩

/-- The end of a chunk's sort key, `%04u`. -/
def chunkKey (index : ℕ) : Bytes := Decimal.writePadded 4 index

/-- The items in the order of their sort keys. -/
def sorted (items : List (ChunkItem ι)) : List (ChunkItem ι) :=
  (items.zipIdx.insertionSort fun a b => chunkKey a.2 ≤ chunkKey b.2).map Prod.fst

/-- The number of indices that have four digits. -/
def maxSortedChunks : ℕ := 10 ^ 4

/-- All the chunks of an edit. -/
def all (writer : ℕ) (bytes : Bytes) (label : ι) : List (ChunkItem ι) :=
  (List.range (chunks bytes)).map (chunk writer bytes label)

/-! ### What the chunks of an edit read back as -/

theorem sorted_eq_self {items : List (ChunkItem ι)} (h : items.length ≤ maxSortedChunks) :
    sorted items = items := by
  have hindices : items.zipIdx.Pairwise fun a b => a.2 < b.2 := by
    rw [← pairwise_map, zipIdx_map_snd]
    exact pairwise_lt_range'
  have hkeys : items.zipIdx.Pairwise fun a b => chunkKey a.2 ≤ chunkKey b.2 := by
    refine hindices.imp_of_mem fun _ hb hab => ?_
    have hlt := (mem_zipIdx' hb).1
    exact Decimal.writePadded_le_writePadded (by decide) (hlt.trans_le h) hab.le
  rw [sorted, hkeys.insertionSort_eq, zipIdx_map_fst]

theorem chunks_pos (bytes : Bytes) : 0 < chunks bytes := lt_max_of_lt_right Nat.one_pos

theorem length_le_chunks (bytes : Bytes) : bytes.length ≤ chunks bytes * chunkPayloadBytes := by
  have hle : (bytes.length + chunkPayloadBytes - 1) / chunkPayloadBytes ≤ chunks bytes :=
    le_max_left _ _
  have hmul := Nat.mul_le_mul_right chunkPayloadBytes hle
  have hdiv := Nat.lt_div_mul_add (a := bytes.length + chunkPayloadBytes - 1)
    (b := chunkPayloadBytes) (by decide)
  have hpos : 0 < chunkPayloadBytes := by decide
  omega

@[simp] theorem length_all (writer : ℕ) (bytes : Bytes) (label : ι) :
    (all writer bytes label).length = chunks bytes := by simp [all]

theorem flatMap_payload_range (writer : ℕ) (bytes : Bytes) (label : ι) (n : ℕ) :
    ((List.range n).map (chunk writer bytes label)).flatMap payload =
      bytes.take (n * chunkPayloadBytes) := by
  induction n with
  | zero => simp
  | succ n ih =>
    rw [range_succ, map_append, flatMap_append, ih, Nat.succ_mul]
    simp [chunk, take_add]

theorem all_eq_cons (writer : ℕ) (bytes : Bytes) (label : ι) :
    ∃ items, all writer bytes label = chunk writer bytes label 0 :: items := by
  obtain ⟨n, hn⟩ := Nat.exists_eq_add_of_le' (chunks_pos bytes)
  exact ⟨_, by rw [all, hn, range_succ_eq_map, map_cons]⟩

theorem getChunked_all (writer : ℕ) (bytes : Bytes) (label : ι) :
    getChunked (all writer bytes label) = .ok ⟨bytes, label⟩ := by
  have hpayload : (all writer bytes label).flatMap payload = bytes := by
    rw [all, flatMap_payload_range, take_of_length_le (length_le_chunks bytes)]
  have hlength := length_all writer bytes label
  obtain ⟨items, hitems⟩ := all_eq_cons writer bytes label
  rw [hitems] at hpayload hlength ⊢
  rw [getChunked, if_neg, hpayload]
  · rfl
  · rw [hlength]
    exact fun h => h.2 rfl

variable {writer : ℕ} {bytes : Bytes} {label : ι}

theorem getChunked_take {k : ℕ} (hpos : 0 < k) (hlt : k < chunks bytes) :
    getChunked ((all writer bytes label).take k) = .error .corrupt := by
  have hlength : ((all writer bytes label).take k).length = k := by
    rw [length_take, length_all]
    omega
  cases hitems : (all writer bytes label).take k with
  | nil =>
    rw [hitems] at hlength
    simp at hlength
    omega
  | cons item items =>
    have hmem : item ∈ all writer bytes label :=
      mem_of_mem_take (hitems ▸ mem_cons_self ..)
    obtain ⟨index, -, rfl⟩ := mem_map.1 hmem
    rw [hitems] at hlength
    rw [getChunked, if_pos]
    rw [hlength]
    have := chunks_pos bytes
    exact ⟨Nat.ne_of_gt this, Nat.ne_of_gt hlt⟩

theorem putChunkedLoop_eq (writer : ℕ) (bytes : Bytes) (label : ι) (count index : ℕ) :
    putChunkedLoop writer bytes label count index ((List.range index).map (chunk writer bytes label)) =
      (.ok, (List.range (index + count)).map (chunk writer bytes label)) := by
  induction count generalizing index with
  | zero => rfl
  | succ count ih =>
    have hput : putOnce ((List.range index).map (chunk writer bytes label)) index
        (chunk writer bytes label index) =
        (.ok, (List.range (index + 1)).map (chunk writer bytes label)) := by
      unfold putOnce
      rw [if_neg (by simp), range_succ, map_append]
      rfl
    rw [putChunkedLoop, hput]
    show putChunkedLoop _ _ _ _ _ _ = _
    rw [ih, Nat.add_right_comm, Nat.add_assoc]

theorem putChunked_nil (writer : ℕ) (bytes : Bytes) (label : ι) :
    putChunked writer bytes label [] = (.ok, all writer bytes label) := by
  have hloop := putChunkedLoop_eq writer bytes label (chunks bytes) 0
  rw [Nat.zero_add, range_zero, map_nil] at hloop
  exact hloop

theorem putChunked_cons (writer : ℕ) (bytes : Bytes) (label : ι) (item : ChunkItem ι)
    (items : List (ChunkItem ι)) :
    putChunked writer bytes label (item :: items) = (.config, item :: items) := by
  obtain ⟨n, hn⟩ := Nat.exists_eq_add_of_le' (chunks_pos bytes)
  rw [putChunked, hn, putChunkedLoop, putOnce, if_pos (by simp)]

theorem putEditChunked_of_ok {items items' : List (ChunkItem ι)}
    (h : putChunked writer bytes label items = (.ok, items')) :
    putEditChunked writer bytes label items = (.ok, items') := by
  unfold putEditChunked
  simp only [h]
  rfl

theorem putEditChunked_of_whole {items : List (ChunkItem ι)}
    (h : putChunked writer bytes label items = (.config, items))
    (hwhole : isPartial items = false) :
    putEditChunked writer bytes label items = (.config, items) := by
  unfold putEditChunked
  simp only [h, hwhole]
  rfl

theorem putEditChunked_all (writer writer' : ℕ) (bytes bytes' : Bytes) (label label' : ι) :
    putEditChunked writer bytes label (all writer' bytes' label') =
      (.config, all writer' bytes' label') := by
  have hlength := length_all writer' bytes' label'
  obtain ⟨items, hitems⟩ := all_eq_cons writer' bytes' label'
  rw [hitems] at hlength ⊢
  refine putEditChunked_of_whole (putChunked_cons _ _ _ _ _) ?_
  rw [isPartial, hlength]
  simp [chunk]

end ChunkItem

/-- The table: pointer and snapshots, and the chunks of each edit. -/
structure DynamoCatalog (ι : Type) where
  base : Catalog ι := {}
  edits : AList (fun _ : ℕ × ℕ => List (ChunkItem ι)) := ∅

namespace DynamoCatalog

open ChunkItem

variable {ι : Type}

variable (d : DynamoCatalog ι)

/-- `query_prefix` with the prefix of one edit. -/
def items (g seq : ℕ) : List (ChunkItem ι) := (d.edits.lookup (g, seq)).getD []

/-- Replace an edit's items. -/
def withItems (g seq : ℕ) (items : List (ChunkItem ι)) : DynamoCatalog ι :=
  { d with edits := d.edits.insert (g, seq) items }

/-- `list_edits`. -/
def listEdits (g : ℕ) : List ℕ :=
  (d.edits.keys.filter fun k => k.1 = g ∧ d.items k.1 k.2 ≠ []).map Prod.snd

/-- `delete_prefix` with the prefix of a generation. -/
def erase (d : DynamoCatalog ι) (g : ℕ) : DynamoCatalog ι where
  base := d.base.erase g
  edits := (d.edits.keys.filter fun k => k.1 = g).foldl (fun edits k => edits.erase k) d.edits

/-- A healthy table, used by the instance `writer`. -/
def answer (writer : ℕ) : (c : Call ι) → DynamoCatalog ι → c.Result × DynamoCatalog ι
  | .putEdit g seq bytes id, d =>
    let put := putEditChunked writer bytes id (d.items g seq)
    (put.1, d.withItems g seq put.2)
  | .getEdit g seq, d => (getChunked (d.items g seq), d)
  | .listEdits g, d => (.ok (d.listEdits g), d)
  | .deleteGeneration g, d => (Status.ok, d.erase g)
  | c, d =>
    ((Catalog.answer c d.base).1, { d with base := (Catalog.answer c d.base).2 })

theorem answer_putEdit (writer g seq : ℕ) (bytes : Bytes) (id : ι) (d : DynamoCatalog ι) :
    answer writer (.putEdit g seq bytes id) d =
      ((putEditChunked writer bytes id (d.items g seq)).1,
        d.withItems g seq (putEditChunked writer bytes id (d.items g seq)).2) := rfl

@[simp] theorem items_withItems (g seq g' seq' : ℕ)
    (items : List (ChunkItem ι)) : (d.withItems g seq items).items g' seq' =
      if (g', seq') = (g, seq) then items else d.items g' seq' := by
  unfold DynamoCatalog.items withItems
  split_ifs with h
  · rw [h, AList.lookup_insert]
    rfl
  · rw [AList.lookup_insert_ne h]

theorem nodup_listEdits (g : ℕ) : (d.listEdits g).Nodup := by
  refine (nodup_map_iff_inj_on (d.edits.keys_nodup.filter _)).2 ?_
  rintro ⟨g₁, seq₁⟩ h₁ ⟨g₂, seq₂⟩ h₂ heq
  simp only [mem_filter, decide_eq_true_eq] at h₁ h₂
  exact Prod.ext (h₁.2.1.trans h₂.2.1.symm) heq

theorem mem_listEdits (g seq : ℕ) : seq ∈ d.listEdits g ↔ d.items g seq ≠ [] := by
  unfold listEdits
  rw [mem_map]
  constructor
  · rintro ⟨⟨g', seq'⟩, hk, rfl⟩
    simp only [mem_filter, decide_eq_true_eq] at hk
    obtain ⟨-, rfl, hitems⟩ := hk
    exact hitems
  · intro hitems
    refine ⟨(g, seq), mem_filter.2 ⟨?_, by simpa using hitems⟩, rfl⟩
    rw [← AList.mem_keys, ← AList.lookup_isSome]
    unfold DynamoCatalog.items at hitems
    cases hlookup : d.edits.lookup (g, seq) with
    | none => simp [hlookup] at hitems
    | some items => rfl

/-- The table holds what a catalog does, each edit whole. -/
structure Represents (d : DynamoCatalog ι) (w : Catalog ι) : Prop where
  pointer : d.base.pointer = w.pointer
  snapshot : ∀ g, d.base.snapshot g = w.snapshot g
  absent : ∀ g seq, w.edit g seq = none → d.items g seq = []
  present : ∀ g seq object, w.edit g seq = some object →
    ∃ writer, d.items g seq = all writer object.bytes object.label

section Represents

variable {d : DynamoCatalog ι} {w : Catalog ι}

theorem Represents.getChunked (h : d.Represents w) {g seq : ℕ} {object : Object ι}
    (hedit : w.edit g seq = some object) : getChunked (d.items g seq) = .ok object := by
  obtain ⟨writer, hitems⟩ := h.present g seq object hedit
  rw [hitems, getChunked_all]

theorem Represents.items_ne_nil (h : d.Represents w) (g seq : ℕ) :
    d.items g seq ≠ [] ↔ (w.edit g seq).isSome := by
  cases hedit : w.edit g seq with
  | none => simp [h.absent g seq hedit]
  | some object =>
    obtain ⟨writer, hitems⟩ := h.present g seq object hedit
    obtain ⟨items, hcons⟩ := all_eq_cons writer object.bytes object.label
    simp [hitems, hcons]

theorem Represents.same (h : d.Represents w) {edits : AList (fun _ : ℕ × ℕ => List (ChunkItem ι))}
    (hsame : ∀ g seq, (⟨d.base, edits⟩ : DynamoCatalog ι).items g seq = d.items g seq) :
    (⟨d.base, edits⟩ : DynamoCatalog ι).Represents w where
  pointer := h.pointer
  snapshot := h.snapshot
  absent g seq hedit := (hsame g seq).trans (h.absent g seq hedit)
  present g seq object hedit := by
    obtain ⟨writer, hitems⟩ := h.present g seq object hedit
    exact ⟨writer, (hsame g seq).trans hitems⟩

theorem Represents.withItems (h : d.Represents w) (writer g seq : ℕ) (bytes : Bytes) (id : ι) :
    (d.withItems g seq (all writer bytes id)).Represents (w.withEdit g seq bytes id) where
  pointer := h.pointer
  snapshot g' := by
    show d.base.snapshot g' = _
    rw [h.snapshot, Catalog.snapshot, Catalog.snapshot, Catalog.withEdit, Catalog.generation_set]
    split_ifs with hg
    · rw [hg]
    · rfl
  absent g' seq' hedit := by
    rw [Catalog.edit_withEdit] at hedit
    rw [items_withItems]
    split_ifs at hedit ⊢ with hkey
    exact h.absent g' seq' hedit
  present g' seq' object hedit := by
    rw [Catalog.edit_withEdit] at hedit
    rw [items_withItems]
    split_ifs at hedit ⊢ with hkey
    · obtain rfl := Option.some.inj hedit
      exact ⟨writer, rfl⟩
    · exact h.present g' seq' object hedit

theorem Represents.putEdit (h : d.Represents w) (writer g seq : ℕ) (bytes : Bytes) (id : ι) :
    (answer writer (.putEdit g seq bytes id) d).1 = (Catalog.answer (.putEdit g seq bytes id) w).1 ∧
      (answer writer (.putEdit g seq bytes id) d).2.Represents
        (Catalog.answer (.putEdit g seq bytes id) w).2 := by
  cases hedit : w.edit g seq with
  | none =>
    have hput := putEditChunked_of_ok (putChunked_nil writer bytes id)
    rw [← h.absent g seq hedit] at hput
    rw [answer_putEdit, hput, Catalog.answer_putEdit_of_none hedit]
    exact ⟨rfl, h.withItems writer g seq bytes id⟩
  | some object =>
    obtain ⟨writer', hitems⟩ := h.present g seq object hedit
    have hput := putEditChunked_all writer writer' bytes object.bytes id object.label
    rw [← hitems] at hput
    rw [answer_putEdit, hput, Catalog.answer_putEdit_of_some hedit]
    refine ⟨rfl, h.same fun g' seq' => ?_⟩
    refine (items_withItems d g seq g' seq' (d.items g seq)).trans ?_
    split_ifs with hkey
    · rw [(Prod.mk.inj hkey).1, (Prod.mk.inj hkey).2]
    · rfl

theorem Represents.answer_getEdit (h : d.Represents w) (writer g seq : ℕ) :
    (answer writer (.getEdit g seq) d).1 = (Catalog.answer (.getEdit g seq) w).1 := by
  show ChunkItem.getChunked (d.items g seq) = _
  cases hedit : w.edit g seq with
  | none => simp [h.absent g seq hedit, ChunkItem.getChunked, Catalog.answer, hedit]
  | some object => simp [h.getChunked hedit, Catalog.answer, hedit]

/-- `get_edit`, its items sorted. -/
def getEdit (d : DynamoCatalog ι) (g seq : ℕ) : Except Status (Object ι) :=
  getChunked (sorted (d.items g seq))

theorem Represents.getEdit (h : d.Represents w) {g seq : ℕ}
    (hchunks : ∀ object ∈ w.edit g seq, chunks object.bytes ≤ maxSortedChunks)
    (writer : ℕ) : d.getEdit g seq = (answer writer (.getEdit g seq) d).1 := by
  have hlength : (d.items g seq).length ≤ maxSortedChunks := by
    cases hedit : w.edit g seq with
    | none => simp [h.absent g seq hedit]
    | some object =>
      obtain ⟨writer', hitems⟩ := h.present g seq object hedit
      rw [hitems, length_all]
      exact hchunks object hedit
  rw [DynamoCatalog.getEdit, sorted_eq_self hlength]
  rfl

/-- An edit that one of the writers puts. -/
structure Put (ι : Type) where
  writer : ℕ
  generation : ℕ
  seq : ℕ
  object : Object ι

/-- The call of a put. -/
def Put.call (p : Put ι) : Call ι := .putEdit p.generation p.seq p.object.bytes p.object.label

theorem Represents.foldl_put (h : d.Represents w) (puts : List (Put ι)) :
    (puts.foldl (fun d p => (answer p.writer p.call d).2) d).Represents
      (puts.foldl (fun w p => (Catalog.answer p.call w).2) w) := by
  induction puts generalizing d w with
  | nil => exact h
  | cons p puts ih => exact ih (h.putEdit p.writer _ _ _ _).2

theorem chunks_foldl_put {limit : ℕ} (puts : List (Put ι))
    (hputs : ∀ p ∈ puts, chunks p.object.bytes ≤ limit)
    (hw : ∀ g seq, ∀ object ∈ w.edit g seq, chunks object.bytes ≤ limit) :
    ∀ g seq, ∀ object ∈ (puts.foldl (fun w p => (Catalog.answer p.call w).2) w).edit g seq,
      chunks object.bytes ≤ limit := by
  induction puts generalizing w with
  | nil => exact hw
  | cons p puts ih =>
    refine ih (fun q hq => hputs q (.tail _ hq)) fun g seq object hobject => ?_
    simp only [Put.call] at hobject
    cases hedit : w.edit p.generation p.seq with
    | none =>
      rw [Catalog.answer_putEdit_of_none hedit, Catalog.edit_withEdit] at hobject
      split_ifs at hobject
      · obtain rfl := Option.some.inj hobject
        exact hputs p (.head _)
      · exact hw g seq object hobject
    | some stored =>
      rw [Catalog.answer_putEdit_of_some hedit] at hobject
      exact hw g seq object hobject

/-- The table answers as a catalog that takes each edit once and whole, up to the chunks four digits
can number. -/
theorem chunked_edits_write_once (h : d.Represents w) (puts : List (Put ι))
    (hw : ∀ g seq, ∀ object ∈ w.edit g seq,
      chunks object.bytes ≤ maxSortedChunks)
    (hputs : ∀ p ∈ puts, chunks p.object.bytes ≤ maxSortedChunks) :
    let table := puts.foldl (fun d p => (answer p.writer p.call d).2) d
    let catalog := puts.foldl (fun w p => (Catalog.answer p.call w).2) w
    (∀ p : Put ι, (answer p.writer p.call table).1 = (Catalog.answer p.call catalog).1) ∧
      ∀ g seq, table.getEdit g seq = (Catalog.answer (.getEdit g seq) catalog).1 := by
  have hrun := h.foldl_put puts
  refine ⟨fun p => (hrun.putEdit p.writer _ _ _ _).1, fun g seq => ?_⟩
  rw [hrun.getEdit (chunks_foldl_put puts hputs hw g seq) 0]
  exact hrun.answer_getEdit 0 g seq

/-- An edit in two chunks. -/
def splitEdit : Bytes := List.replicate 400000 7

theorem chunked_edits_write_once_split :
    let table := (answer 1 (.putEdit 0 1 splitEdit 6) ({} : DynamoCatalog ℕ)).2
    chunks splitEdit = 2 ∧ (answer 2 (.putEdit 0 1 [5] 7) table).1 = Status.config ∧
      table.getEdit 0 1 = .ok ⟨splitEdit, 6⟩ := by
  have hempty : ({} : DynamoCatalog ℕ).Represents {} :=
    ⟨rfl, fun _ => rfl, fun _ _ _ => rfl, fun _ _ _ hedit => by cases hedit⟩
  have hchunks : chunks splitEdit = 2 := by
    rw [chunks, splitEdit, length_replicate]
    rfl
  obtain ⟨hput, hget⟩ := chunked_edits_write_once hempty [⟨1, 0, 1, splitEdit, 6⟩]
    (fun _ _ _ hobject => by cases hobject) (by simp [hchunks, maxSortedChunks])
  exact ⟨hchunks, hput ⟨2, 0, 1, [5], 7⟩, hget 0 1⟩

/-! ### Recovering from the table -/

variable {config : ManifestConfig} {l : VersionSet.Ledger ι}

theorem Represents.serves (h : d.Represents w) (hstored : VersionSet.Stored config w l)
    (writer : ℕ) {d' : DynamoCatalog ι}
    (hitems : ∀ seq, seq ≤ l.records.length →
      d'.items l.entry.generation seq = d.items l.entry.generation seq)
    (i : ℕ) (r : Record ι) (hr : l.records[i]? = some r) :
    VersionSet.ServesEdit config (answer writer) d' l.entry.generation (1 + i) r := by
  have hlt : i < l.records.length := (List.getElem?_eq_some_iff.1 hr).1
  obtain ⟨object, hlookup, hlabel, hread⟩ := hstored.holds.edits i r hr
  have hedit : w.edit l.entry.generation (i + 1) = some object := hlookup
  have hget := h.getChunked hedit
  rw [Nat.add_comm 1 i]
  refine ⟨object, ?_, hlabel, hread⟩
  show (ChunkItem.getChunked (d'.items l.entry.generation (i + 1)), d') = _
  rw [hitems (i + 1) hlt, hget]

theorem Represents.answer_read (h : d.Represents w) (hstored : VersionSet.Stored config w l)
    (writer : ℕ) (edits : AList (fun _ : ℕ × ℕ => List (ChunkItem ι))) :
    answer writer .read ⟨d.base, edits⟩ = (.ok (some l.entry), ⟨d.base, edits⟩) := by
  show (Except.ok d.base.pointer, (⟨d.base, edits⟩ : DynamoCatalog ι)) = _
  rw [h.pointer, hstored.pointer]

theorem Represents.answer_getSnapshot (h : d.Represents w) (writer : ℕ) {g : ℕ}
    {object : Object (List (Record ι))} (hobject : w.snapshot g = some object)
    (edits : AList (fun _ : ℕ × ℕ => List (ChunkItem ι))) :
    answer writer (.getSnapshot g) ⟨d.base, edits⟩ = (.ok object, ⟨d.base, edits⟩) := by
  have hbase : Catalog.answer (.getSnapshot g) d.base = (.ok object, d.base) := by
    rw [← h.snapshot] at hobject
    simp [Catalog.answer, hobject]
  show ((Catalog.answer (.getSnapshot g) d.base).1,
    (⟨(Catalog.answer (.getSnapshot g) d.base).2, edits⟩ : DynamoCatalog ι)) = _
  rw [hbase]

theorem Represents.run_recover (h : d.Represents w) (hstored : VersionSet.Stored config w l)
    (writer : ℕ) :
    (VersionSet.recover config {}).run (answer writer) d =
      ((.ok, ({} : VersionSet ι).recovered l.entry (l.assembled config)), d) := by
  obtain ⟨object, hobject, hlabel, hread⟩ := hstored.holds.snapshot
  have hmem : ∀ seq, seq ∈ d.listEdits l.entry.generation ↔ 1 ≤ seq ∧ seq ≤ l.records.length := by
    intro seq
    rw [mem_listEdits, h.items_ne_nil, Catalog.edit, AList.lookup_isSome, AList.mem_keys]
    exact hstored.holds.mem_keys seq
  refine VersionSet.run_recover (h.answer_read hstored writer d.edits)
    (h.answer_getSnapshot writer hobject d.edits) hread rfl ?_ rfl
  rw [VersionSet.insertionSort_eq_range' (d.nodup_listEdits _) hmem, hlabel,
    ← append_nil (List.range' 1 l.records.length)]
  exact VersionSet.run_replayEdits _ _ [] (VersionSet.assembledSnapshot config l.snapshot _ l.base)
    (h.serves hstored writer fun _ _ => rfl)

theorem Represents.run_recover_partial (h : d.Represents w) (hstored : VersionSet.Stored config w l)
    (writer writer' : ℕ) {k : ℕ} {bytes : Bytes} (id : ι) (hpos : 0 < k)
    (hlt : k < ChunkItem.chunks bytes) :
    (recover config {}).run (answer writer) (d.withItems l.entry.generation
      (l.records.length + 1) ((ChunkItem.all writer' bytes id).take k)) =
      ((.io, {}), d.withItems l.entry.generation (l.records.length + 1)
        ((ChunkItem.all writer' bytes id).take k)) := by
  obtain ⟨object, hobject, hlabel, hread⟩ := hstored.holds.snapshot
  set d' := d.withItems l.entry.generation (l.records.length + 1)
    ((ChunkItem.all writer' bytes id).take k) with hd'
  have hitems : ∀ seq, d'.items l.entry.generation seq = if seq = l.records.length + 1 then
      (ChunkItem.all writer' bytes id).take k else d.items l.entry.generation seq := by
    intro seq
    rw [hd', items_withItems]
    simp
  have hne : (ChunkItem.all writer' bytes id).take k ≠ [] := by
    intro hnil
    have hlength := congrArg List.length hnil
    rw [length_take, ChunkItem.length_all, length_nil] at hlength
    omega
  have hmem : ∀ seq, seq ∈ d'.listEdits l.entry.generation ↔
      1 ≤ seq ∧ seq ≤ l.records.length + 1 := by
    intro seq
    rw [mem_listEdits, hitems]
    split_ifs with hseq
    · simp only [ne_eq, hne, not_false_eq_true, true_iff]
      omega
    · rw [h.items_ne_nil, Catalog.edit, AList.lookup_isSome, AList.mem_keys, hstored.holds.mem_keys]
      omega
  have hserves : ∀ i r, l.records[i]? = some r →
      VersionSet.ServesEdit config (answer writer) d' l.entry.generation (1 + i) r := by
    refine h.serves hstored writer fun seq hseq => ?_
    rw [hitems, if_neg (by omega)]
  have hget : answer writer (.getEdit l.entry.generation (1 + l.records.length)) d' =
      (.error .corrupt, d') := by
    show (ChunkItem.getChunked (d'.items l.entry.generation (1 + l.records.length)), d') = _
    rw [hitems, if_pos (Nat.add_comm 1 _), ChunkItem.getChunked_take hpos hlt]
  refine run_recover_unreadable (h.answer_read hstored writer d'.edits)
    (h.answer_getSnapshot writer hobject d'.edits) hread rfl ?_
  rw [insertionSort_eq_range' (d'.nodup_listEdits _) hmem, hlabel, List.range'_1_concat]
  refine (run_replayEdits _ _ _ (assembledSnapshot config l.snapshot _ l.base) hserves).trans ?_
  rw [replayEdits, if_neg]
  · exact run_ask_bind hget _
  · rw [VersionSet.Assembled.expectedSeq_replayAll]
    exact fun hne => hne rfl

end Represents

end DynamoCatalog

end ElysiumKV
