/-
# What the ranks get of the rank map

Rank 0 has all rows in its arrays. What it sends is the part of each array that belongs to a
block, with the terminating NULs of the names; what it copies are the names alone. A name
that fills its slot leaves no room for a NUL, and a copied name is terminated by what
`malloc` happened to return. These two things, a file for every rank, and a message that
rank 0 may send itself decide whether every rank has its rows: `delivered_iff`.
-/

import PerfHound.Utils.Rankmap

namespace PerfHound

open Lib Lib.CText Lib.Slots Lib.StringBuffer

namespace Rankmap

variable {rows : List MapRow} {r : MapRow} {old t : Tables} {n : ℕ}

/-! ## Reading the arrays -/

/-- A slot with the text of a name, and the slots behind it. -/
theorem host_fill {text : MapRow → List Char} (hold : Sized rows.length old)
    (htext : ∀ x ∈ rows.map text, x.length ≤ hostNameMax) {i : ℕ} (hi : rows[i]? = some r) :
    ∃ more, (fill text rows old).host i =
      printed (text r ++ ((old.hosts.drop (hostNameMax * i)).take hostNameMax).drop
        (text r).length ++ more) := by
  obtain ⟨hlt, rfl⟩ := List.getElem?_eq_some_iff.mp hi
  have hdrop : (overlay _ _ old.hosts).drop (hostNameMax * i) = _ :=
    drop_overlay htext (by rw [List.length_map, hold.hosts]) (by rw [List.length_map]; exact hlt.le)
  rw [← List.map_drop, List.drop_eq_getElem_cons hlt, List.map_cons, overlay] at hdrop
  rw [Tables.host, fill, hdrop]
  exact ⟨_, rfl⟩

/-- The number in an array of numbers. -/
theorem getElem?_overlay_one {α : Type} (g : MapRow → α) {array : List α}
    (hlength : array.length = rows.length) {i : ℕ} (hi : rows[i]? = some r) :
    (overlay 1 (rows.map fun x => [g x]) array)[i]? = some (g r) := by
  have hfilled := overlay_one (rows.map g) array
  have hmap : (fun x => [x]) ∘ g = fun x => [g x] := rfl
  rw [List.map_map, List.length_map, ← hlength, List.drop_length, List.append_nil, hmap] at hfilled
  rw [hfilled, List.getElem?_map, hi]
  rfl

theorem entry_fill {text : MapRow → List Char} (hold : Sized rows.length old) {i : ℕ}
    (hi : rows[i]? = some r) :
    (fill text rows old).entry i =
      ((fill text rows old).host i).map fun host => ⟨r.rank, host, r.cpu⟩ := by
  rw [Tables.entry]
  simp only [fill, getElem?_overlay_one MapRow.rank hold.ranks hi,
    getElem?_overlay_one MapRow.cpu hold.cpus hi, Option.bind_eq_bind, Option.bind_some,
    Option.map_eq_bind]
  rfl

/-- A name with its NUL is read back. -/
theorem host_terminated (hshort : Short rows) (hold : Sized rows.length old) {i : ℕ}
    (hi : rows[i]? = some r) : (fill terminated rows old).host i = some r.host.chars := by
  obtain ⟨more, hhost⟩ := host_fill hold (length_terminated_le hshort) hi
  rw [hhost]
  exact printed_of_eq (by rw [terminated, List.append_assoc, List.append_assoc]; rfl)
    r.host.plain.nul_not_mem

theorem entry_terminated (hshort : Short rows) (hold : Sized rows.length old) {i : ℕ}
    (hi : rows[i]? = some r) : (fill terminated rows old).entry i = some r.entry := by
  rw [entry_fill hold hi, host_terminated hshort hold hi]
  rfl

/-- A name without it is read back only if there is a NUL behind it. -/
theorem entry_bare_iff (hshort : Short rows) (hold : Sized rows.length old) {i : ℕ}
    (hi : rows[i]? = some r) :
    (fill bare rows old).entry i = some r.entry ↔
      old.hosts[hostNameMax * i + r.host.chars.length]? = some nul := by
  obtain ⟨more, hhost⟩ := host_fill hold (length_bare_le rows) hi
  have hlen : r.host.chars.length < hostNameMax := hshort r (List.mem_of_getElem? hi)
  have hi' : i < rows.length := (List.getElem?_eq_some_iff.mp hi).1
  have hbound : hostNameMax * i + r.host.chars.length < old.hosts.length := by
    rw [hold.hosts]
    calc hostNameMax * i + r.host.chars.length
        < hostNameMax * i + hostNameMax := Nat.add_lt_add_left hlen _
      _ = hostNameMax * (i + 1) := (Nat.mul_succ _ _).symm
      _ ≤ hostNameMax * rows.length := Nat.mul_le_mul_left _ hi'
  have hslot : ((old.hosts.drop (hostNameMax * i)).take hostNameMax)[r.host.chars.length]? =
      old.hosts[hostNameMax * i + r.host.chars.length]? := by
    rw [List.getElem?_take_of_lt hlen, List.getElem?_drop]
  obtain ⟨c, hc⟩ : ∃ c, old.hosts[hostNameMax * i + r.host.chars.length]? = some c :=
    ⟨_, List.getElem?_eq_getElem hbound⟩
  rw [hc] at hslot
  have hbehind := List.drop_eq_getElem?_toList_append
    (l := (old.hosts.drop (hostNameMax * i)).take hostNameMax) (i := r.host.chars.length)
  rw [hslot] at hbehind
  have hname : (fill bare rows old).host i = some r.host.chars ↔ c = nul := by
    rw [hhost, bare, hbehind, List.append_assoc]
    exact printed_append_iff r.host.plain.nul_not_mem c _
  rw [entry_fill hold hi, hc, Option.some.injEq, ← hname, Option.map_eq_some_iff]
  constructor
  · rintro ⟨host, hfilled, hentry⟩
    obtain rfl : host = r.host.chars := congrArg Entry.host hentry
    exact hfilled
  · intro hprinted
    exact ⟨r.host.chars, hprinted, rfl⟩

/-! ## What rank 0 copies and sends -/

variable {own all : Tables} {k : ℕ}

theorem store_bare (done : List MapRow) (r : MapRow) {array : List Char}
    (hroom : hostNameMax * (done.length + 1) ≤ array.length) :
    store (hostNameMax * done.length) r.host.chars (overlay hostNameMax (done.map bare) array) =
      some (overlay hostNameMax ((done ++ [r]).map bare) array) := by
  have hstore : store _ (bare r) (overlay _ _ array) = _ :=
    store_overlay (length_bare_le done) r.host.le (by rw [List.length_map]; exact hroom)
  rw [List.length_map] at hstore
  rw [List.map_append]
  exact hstore

/-- The loop that copies, up to one of its entries. -/
theorem foldlM_copyRow (hshort : Short rows) (hall : Sized rows.length all) (hown : Sized n own)
    (hn : n ≤ rows.length) :
    ∀ k ≤ n, (List.range k).foldlM (copyRow (fill terminated rows all)) own =
      some (fill bare (rows.take k) own) := by
  intro k
  induction k with
  | zero => exact fun _ => rfl
  | succ k ih =>
      intro hk
      have hlt : k < rows.length := by omega
      obtain ⟨r, hr⟩ : ∃ r, rows[k]? = some r := ⟨_, List.getElem?_eq_getElem hlt⟩
      have htake : rows.take (k + 1) = rows.take k ++ [r] := by
        rw [List.take_add_one, hr]
        rfl
      have hdone : (rows.take k).length = k := by
        rw [List.length_take, Nat.min_eq_left hlt.le]
      have hcpus : store (rows.take k).length [r.cpu] (overlay _ _ own.cpus) = _ :=
        store_one MapRow.cpu (by rw [hown.cpus, hdone]; exact hk)
      have hranks : store (rows.take k).length [r.rank] (overlay _ _ own.ranks) = _ :=
        store_one MapRow.rank (by rw [hown.ranks, hdone]; exact hk)
      have hhosts : store _ _ (overlay _ _ own.hosts) = _ :=
        store_bare (rows.take k) r (by rw [hown.hosts, hdone]; exact Nat.mul_le_mul_left _ hk)
      rw [hdone] at hcpus hranks hhosts
      rw [List.range_succ, List.foldlM_append, ih (by omega), htake]
      simp only [List.foldlM_cons, List.foldlM_nil, copyRow, host_terminated hshort hall hr,
        Option.bind_eq_bind, Option.bind_some]
      simp only [fill, getElem?_overlay_one MapRow.rank hall.ranks hr,
        getElem?_overlay_one MapRow.cpu hall.cpus hr, hcpus, hranks, hhosts, Option.bind_some]
      rfl

/-- Part of the arrays. -/
def Tables.part (t : Tables) (offset count : ℕ) : Tables where
  ranks := (t.ranks.drop offset).take count
  cpus := (t.cpus.drop offset).take count
  hosts := (t.hosts.drop (hostNameMax * offset)).take (hostNameMax * count)

theorem receive_share (all : Tables) (dst offset count : ℕ) :
    receive all (Distribution.share dst offset count) = some (all.part offset count) := rfl

theorem sized_part (hall : Sized n all) {offset count : ℕ} (hend : offset + count ≤ n) :
    Sized count (all.part offset count) := by
  have hhosts : hostNameMax * (offset + count) ≤ hostNameMax * n := Nat.mul_le_mul_left _ hend
  rw [Nat.mul_add] at hhosts
  constructor
  · rw [Tables.part, List.length_take, List.length_drop, hall.ranks]
    omega
  · rw [Tables.part, List.length_take, List.length_drop, hall.cpus]
    omega
  · rw [Tables.part, List.length_take, List.length_drop, hall.hosts]
    omega

/-- A part of filled arrays is filled with the rows of that part. -/
theorem part_fill (hshort : Short rows) (hall : Sized rows.length all) {offset count : ℕ}
    (hend : offset + count ≤ rows.length) :
    (fill terminated rows all).part offset count =
      fill terminated ((rows.drop offset).take count) (all.part offset count) := by
  have hone : ∀ {α : Type} (g : MapRow → α) (array : List α), array.length = rows.length →
      ((overlay 1 (rows.map fun x => [g x]) array).drop offset).take count =
        overlay 1 (((rows.drop offset).take count).map fun x => [g x])
          ((array.drop offset).take count) := by
    intro α g array hlength
    have hentries : ∀ x ∈ rows.map fun x => [g x], x.length ≤ 1 := by simp
    have hpart := part_overlay array hentries (by rw [List.length_map, Nat.one_mul, hlength])
      (by rw [List.length_map]; exact hend)
    simpa only [Nat.one_mul, List.map_take, List.map_drop] using hpart
  have hhosts := part_overlay all.hosts (length_terminated_le hshort)
    (by rw [List.length_map, hall.hosts]) (by rw [List.length_map]; exact hend)
  simp only [Tables.part, fill, hone MapRow.rank _ hall.ranks, hone MapRow.cpu _ hall.cpus, hhosts,
    List.map_take, List.map_drop]

/-! ## All ranks -/

variable {buffered : Bool} {allMem ownMem mem : Memory} {np myid fcount : ℕ}

/-- What a rank can do with its arrays before it looks at them. -/
theorem guard_iff (hrows : rows ≠ []) (hnp : 1 ≤ np) :
    (Distribution.InBounds rows.length np ∧
        ∀ r < np, Distribution.Matched rows.length np r ∨ r = 0 ∧ buffered) ↔
      np ≤ rows.length ∧ (rows.length % np ≠ 0 ∨ buffered) := by
  rw [Distribution.inBounds_iff (List.length_pos_iff.mpr hrows) hnp]
  refine and_congr_right fun _ => ?_
  constructor
  · intro h
    rcases h 0 hnp with hmatched | ⟨-, hbuffered⟩
    · rw [Blocks.matched_rank_iff hnp] at hmatched
      exact Or.inl (hmatched.resolve_left fun h => h rfl)
    · exact Or.inr hbuffered
  · intro h r hr
    rw [Blocks.matched_rank_iff hr]
    by_cases hroot : r = 0
    · exact h.imp Or.inr fun hbuffered => ⟨hroot, hbuffered⟩
    · exact Or.inl (Or.inl hroot)

theorem initRankmap_eq_some_iff (hrows : rows ≠ []) (hnp : 1 ≤ np) :
    initRankmap buffered allMem ownMem np (rankmapText rows) myid = some (fcount, t) ↔
      ∃ all, readRankmap allMem (rankmapText rows) = some (fcount, all) ∧
        (np ≤ rows.length ∧ (rows.length % np ≠ 0 ∨ buffered)) ∧
        ownTables all ownMem rows.length np myid = some t := by
  have hcount : ∀ {fcount all}, readRankmap allMem (rankmapText rows) = some (fcount, all) →
      fcount = rows.length := by
    intro fcount all h
    simp only [readRankmap, Option.bind_eq_bind, Option.bind_eq_some_iff] at h
    obtain ⟨t, -, h⟩ := h
    split at h
    · rw [← (Prod.mk.inj (Option.some.inj h)).1, countRows_rankmapText]
    · cases h
  rw [initRankmap, Option.bind_eq_bind, Option.bind_eq_some_iff]
  constructor
  · rintro ⟨⟨count, all⟩, hread, h⟩
    obtain rfl := hcount hread
    simp only [guard_iff hrows hnp] at h
    split at h
    case isTrue hguard =>
      obtain ⟨own, hown, hend⟩ := Option.bind_eq_some_iff.mp h
      obtain ⟨rfl, rfl⟩ := Prod.mk.inj (Option.some.inj hend)
      exact ⟨all, hread, hguard, hown⟩
    case isFalse => cases h
  · rintro ⟨all, hread, hguard, hown⟩
    obtain rfl := hcount hread
    refine ⟨_, hread, ?_⟩
    simp only [guard_iff hrows hnp, if_pos hguard, hown, Option.bind_eq_bind, Option.bind_some]
    rfl

/-- What rank 0 reads of names that are short. -/
theorem readRankmap_eq (allMem : Memory) (hshort : Short rows) :
    readRankmap allMem (rankmapText rows) =
      some (rows.length, fill terminated rows (allMem.tables rows.length)) := by
  have hnames : ∀ i < rows.length,
      ((fill terminated rows (allMem.tables rows.length)).host i).isSome := by
    intro i hi
    rw [host_terminated hshort (sized_tables _ _) (List.getElem?_eq_getElem hi)]
    rfl
  simp only [readRankmap, countRows_rankmapText, parse_rankmapText hshort, Option.bind_eq_bind,
    Option.bind_some, if_pos hnames]
  rfl

theorem ownTables_root (hshort : Short rows) (hall : Sized rows.length all) (hnp : 1 ≤ np) :
    ownTables (fill terminated rows all) mem rows.length np 0 =
      some (fill bare (rows.take (Distribution.nf rows.length np 0))
        (mem.tables (Distribution.nf rows.length np 0))) := by
  rw [ownTables, if_pos rfl]
  exact foldlM_copyRow hshort hall (sized_tables _ _) (Distribution.nf_le hnp 0) _ (Nat.le_refl _)

theorem ownTables_other (hshort : Short rows) (hall : Sized rows.length all) (hmyid : myid < np)
    (hroot : myid ≠ 0) :
    ownTables (fill terminated rows all) mem rows.length np myid =
      some (fill terminated
        ((rows.drop (Blocks.first rows.length np myid)).take (Distribution.nf rows.length np myid))
        (all.part (Blocks.first rows.length np myid) (Distribution.nf rows.length np myid))) := by
  rw [ownTables, if_neg hroot, Blocks.filter_sends_eq hmyid hroot, receive_share,
    part_fill hshort hall (Blocks.first_add_nf_le hmyid)]

/-! ## Names that fill their slot -/

theorem length_hosts_copyRow {i : ℕ} (h : copyRow all own i = some t) :
    t.hosts.length = own.hosts.length := by
  simp only [copyRow, Option.bind_eq_bind, Option.bind_eq_some_iff] at h
  obtain ⟨cpu, -, cpus, -, rank, -, ranks, -, host, -, hosts, hstore, hend⟩ := h
  obtain rfl := Option.some.inj hend
  rw [store] at hstore
  split at hstore
  case isTrue hfits =>
    obtain rfl := Option.some.inj hstore
    exact length_writeAt hfits
  case isFalse => cases hstore

/-- The array of names is as long as the rank has allocated, or as what it is sent. -/
theorem length_hosts_le (hmyid : myid < np) (h : ownTables all mem fcount np myid = some t) :
    t.hosts.length ≤ hostNameMax * Distribution.nf fcount np myid := by
  rw [ownTables] at h
  split at h
  case isTrue hroot =>
    subst hroot
    have hloop : ∀ (l : List ℕ) (own : Tables), l.foldlM (copyRow all) own = some t →
        t.hosts.length = own.hosts.length := by
      intro l
      induction l with
      | nil =>
          intro own h
          obtain rfl := Option.some.inj h
          rfl
      | cons i l ih =>
          intro own h
          obtain ⟨own', hcopy, hrest⟩ := Option.bind_eq_some_iff.mp h
          rw [ih own' hrest, length_hosts_copyRow hcopy]
    rw [hloop _ _ h, (sized_tables mem _).hosts]
  case isFalse hroot =>
    rw [Blocks.filter_sends_eq hmyid hroot, receive_share] at h
    obtain rfl := Option.some.inj h
    exact List.length_take_le _ _

/-- In an array without more slots, a C string is a name only if it is shorter than its
slot: behind a name that fills it comes the next name, or nothing. -/
theorem short_of_entries {l : List MapRow} (hlength : t.hosts.length ≤ hostNameMax * l.length)
    (hentries : ∀ (i : ℕ) (r : MapRow), l[i]? = some r → t.entry i = some r.entry) : Short l := by
  have hname : ∀ (i : ℕ) (r : MapRow), l[i]? = some r → t.host i = some r.host.chars := by
    intro i r hi
    have hentry := hentries i r hi
    simp only [Tables.entry, Option.bind_eq_bind, Option.bind_eq_some_iff] at hentry
    obtain ⟨rank, -, host, hhost, cpu, -, hend⟩ := hentry
    obtain rfl : host = r.host.chars := congrArg Entry.host (Option.some.inj hend)
    exact hhost
  intro r hr
  by_contra hfull
  obtain ⟨i, hi⟩ := List.getElem?_of_mem hr
  have hsize : r.host.chars.length = hostNameMax :=
    Nat.le_antisymm r.host.le (Nat.le_of_not_lt hfull)
  obtain ⟨rest, hslot, -⟩ := eq_of_printed (hname i r hi)
  have hnext : t.hosts.drop (hostNameMax * (i + 1)) = nul :: rest := by
    rw [Nat.mul_succ, ← List.drop_drop, hslot, ← hsize, List.drop_left]
  have hmore : i + 1 < l.length := by
    by_contra hlast
    have hend : hostNameMax * l.length ≤ hostNameMax * (i + 1) :=
      Nat.mul_le_mul_left _ (Nat.le_of_not_lt hlast)
    rw [List.drop_eq_nil_of_le (hlength.trans hend)] at hnext
    cases hnext
  -- the next name would start with the NUL
  have hempty := hname (i + 1) l[i + 1] (List.getElem?_eq_getElem hmore)
  rw [Tables.host, hnext, printed_of_eq (List.nil_append _).symm (by simp)] at hempty
  exact l[i + 1].host.ne_nil (Option.some.inj hempty).symm

/-! ## Delivery -/

/-- The rows of a block, by their place in it. -/
theorem getElem?_block {i offset count : ℕ} (hi : i < count) (rows : List MapRow) :
    ((rows.drop offset).take count)[i]? = rows[offset + i]? := by
  rw [List.getElem?_take_of_lt hi, List.getElem?_drop]

theorem length_block (hr : myid < np) :
    ((rows.drop (Blocks.first rows.length np myid)).take
      (Distribution.nf rows.length np myid)).length = Distribution.nf rows.length np myid := by
  have hend : Blocks.first rows.length np myid + Distribution.nf rows.length np myid ≤
      rows.length := Blocks.first_add_nf_le hr
  rw [List.length_take, List.length_drop]
  omega

theorem short_of_delivered (hnp : 1 ≤ np) (hrows : rows ≠ [])
    (h : Delivered buffered allMem ownMem np rows) : Short rows := by
  intro row hrow
  obtain ⟨k, hk⟩ := List.getElem?_of_mem hrow
  have hlt : k < Blocks.first rows.length np np := by
    rw [Blocks.first_np hnp]
    exact (List.getElem?_eq_some_iff.mp hk).1
  obtain ⟨r, hr, hfrom, hto⟩ := Blocks.exists_block hlt
  rw [Blocks.first_succ] at hto
  obtain ⟨t, ht, hentries⟩ := h r hr
  obtain ⟨all, -, -, hown⟩ := (initRankmap_eq_some_iff hrows hnp).mp ht
  have hshort := short_of_entries (by rw [length_block hr]; exact length_hosts_le hr hown) (by
    intro i x hx
    have hi : i < Distribution.nf rows.length np r := by
      rw [← length_block hr]
      exact (List.getElem?_eq_some_iff.mp hx).1
    rw [getElem?_block hi] at hx
    rw [hentries i hi, hx]
    rfl)
  refine hshort row (List.mem_of_getElem? (i := k - Blocks.first rows.length np r) ?_)
  rw [getElem?_block (by omega), Nat.add_sub_cancel' hfrom, hk]

/-- A name rank 0 has copied is read back if the memory behind it holds a NUL. -/
theorem entry_copied_iff (hshort : Short rows) (hn : n ≤ rows.length) {i : ℕ} (hi : i < n)
    (hr : rows[i]? = some r) :
    (fill bare (rows.take n) (mem.tables n)).entry i = some r.entry ↔
      mem.hosts (hostNameMax * i + r.host.chars.length) = nul := by
  have htake : (rows.take n).length = n := by
    rw [List.length_take, Nat.min_eq_left hn]
  have hshort' : Short (rows.take n) := fun x hx => hshort x (List.mem_of_mem_take hx)
  have hsized : Sized (rows.take n).length (mem.tables n) := by
    rw [htake]
    exact sized_tables mem n
  have hinside : hostNameMax * i + r.host.chars.length < hostNameMax * n := by
    have hslot : hostNameMax * (i + 1) ≤ hostNameMax * n := Nat.mul_le_mul_left _ hi
    have hlen : r.host.chars.length < hostNameMax := hshort r (List.mem_of_getElem? hr)
    rw [Nat.mul_succ] at hslot
    omega
  rw [entry_bare_iff hshort' hsized (by rw [List.getElem?_take_of_lt hi, hr]), Memory.tables,
    List.getElem?_map, List.getElem?_range hinside]
  exact Option.some_inj

/-- **The rank map.** Every rank has the rows of its block exactly when there is a row for
every rank, the message rank 0 may send itself is buffered, every name leaves room for a
NUL, and behind each name of rank 0 the memory it has allocated holds one. -/
theorem delivered_iff (buffered : Bool) (allMem ownMem : Memory) (np : ℕ) (hnp : 1 ≤ np)
    (rows : List MapRow) (hrows : rows ≠ []) :
    Delivered buffered allMem ownMem np rows ↔
      np ≤ rows.length ∧ (rows.length % np ≠ 0 ∨ buffered) ∧ Short rows ∧
        ∀ i < Distribution.nf rows.length np 0, ∀ r ∈ rows[i]?,
          ownMem.hosts (hostNameMax * i + r.host.chars.length) = nul := by
  have hall := sized_tables allMem rows.length
  have hnf : Distribution.nf rows.length np 0 ≤ rows.length := Distribution.nf_le hnp 0
  constructor
  · intro h
    have hshort := short_of_delivered hnp hrows h
    obtain ⟨t, ht, hentries⟩ := h 0 hnp
    obtain ⟨all, hread, hguard, hown⟩ := (initRankmap_eq_some_iff hrows hnp).mp ht
    refine ⟨hguard.1, hguard.2, hshort, fun i hi r hr => ?_⟩
    rw [readRankmap_eq allMem hshort] at hread
    obtain rfl := (Prod.mk.inj (Option.some.inj hread)).2
    rw [ownTables_root hshort hall hnp] at hown
    obtain rfl := Option.some.inj hown
    have hentry := hentries i hi
    rw [Blocks.first_zero, Nat.zero_add, hr] at hentry
    exact (entry_copied_iff hshort hnf hi hr).mp hentry
  · rintro ⟨hle, hsend, hshort, hmem⟩ myid hmyid
    have hread := readRankmap_eq allMem hshort
    by_cases hroot : myid = 0
    case pos =>
      subst hroot
      refine ⟨_, (initRankmap_eq_some_iff hrows hnp).mpr
        ⟨_, hread, ⟨hle, hsend⟩, ownTables_root hshort hall hnp⟩, fun i hi => ?_⟩
      have hlt : i < rows.length := Nat.lt_of_lt_of_le hi hnf
      have hr : rows[i]? = some rows[i] := List.getElem?_eq_getElem hlt
      rw [Blocks.first_zero, Nat.zero_add, hr]
      exact (entry_copied_iff hshort hnf hi hr).mpr (hmem i hi _ hr)
    case neg =>
      refine ⟨_, (initRankmap_eq_some_iff hrows hnp).mpr
        ⟨_, hread, ⟨hle, hsend⟩, ownTables_other hshort hall hmyid hroot⟩, fun i hi => ?_⟩
      have hsized : Sized ((rows.drop (Blocks.first rows.length np myid)).take
          (Distribution.nf rows.length np myid)).length
          ((allMem.tables rows.length).part (Blocks.first rows.length np myid)
            (Distribution.nf rows.length np myid)) := by
        rw [length_block hmyid]
        exact sized_part hall (Blocks.first_add_nf_le hmyid)
      have hlt : Blocks.first rows.length np myid + i < rows.length :=
        Nat.lt_of_lt_of_le (Nat.add_lt_add_left hi _) (Blocks.first_add_nf_le hmyid)
      have hr : rows[Blocks.first rows.length np myid + i]? = some _ :=
        List.getElem?_eq_getElem hlt
      rw [hr]
      exact entry_terminated (fun x hx => hshort x (List.mem_of_mem_drop (List.mem_of_mem_take hx)))
        hsized (by rw [getElem?_block hi, hr])

def threeRows : List MapRow :=
  let node : HostName := ⟨"n0".toList, by decide, by decide, by decide⟩
  [⟨0, node, 0, 0, 0⟩, ⟨1, node, 1, 0, 0⟩, ⟨2, node, 2, 0, 0⟩]

/-- Memory that holds one character everywhere. -/
def constMemory (c : Char) : Memory := ⟨fun _ => 0, fun _ => 0, fun _ => c⟩

theorem delivered_iff_three_rows :
    Delivered false (constMemory 'x') (constMemory nul) 2 threeRows := by
  rw [delivered_iff false (constMemory 'x') (constMemory nul) 2 (by decide) threeRows (by decide)]
  have hshort : Short threeRows := by
    intro r hr
    simp only [threeRows, List.mem_cons, List.not_mem_nil, or_false] at hr
    rcases hr with rfl | rfl | rfl <;> decide
  exact ⟨by decide, Or.inl (by decide), hshort, fun _ _ _ _ => rfl⟩

/-- In memory without a NUL, the first name of rank 0 does not end. -/
theorem name_of_root_not_terminated :
    let run := initRankmap false (constMemory 'x') (constMemory 'x') 2 (rankmapText threeRows) 0
    run.isSome ∧ run.bind (fun x => x.2.entry 0) = none ∧
      ¬Delivered false (constMemory 'x') (constMemory 'x') 2 threeRows := by
  intro run
  have hsome : run.isSome := by decide +kernel
  have hnone : run.bind (fun x => x.2.entry 0) = none := by decide +kernel
  refine ⟨hsome, hnone, ?_⟩
  intro h
  obtain ⟨t, ht, hentries⟩ := h 0 (by decide)
  have hentry := hentries 0 (by decide)
  have hrun : run = some (threeRows.length, t) := ht
  rw [hrun, Option.bind_some, hentry] at hnone
  cases hnone

end Rankmap

end PerfHound
