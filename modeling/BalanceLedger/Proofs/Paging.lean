/-
# `Proofs.Paging` — pages partition the history

A page of the history is worked out from the whole log each time: the entries that are
asked for are selected, sorted by their dates and cut.  Nothing is kept from one page to
the next.  Pages fit together all the same, because they are cut out of one listing of
the log, in which every entry has its place: by its date, and by its place in the log
where the dates are the same.  `Lists` is what such a listing is, and `lists_listing`
says that the sort comes to one; that it is stable is used there and nowhere else.

Nothing is assumed of the log.  Entries may repeat, so they are told apart by their
places, and dates may come in any order.  What is asked for may be any words: a page
begins where the nearest one does that there is, by `Page.cut_clamp`.

Reading page by page is `Reads`, from any place on, so that the induction is over the
reading and not over a number of pages.  `Reads.flatMap_entries` says that it reads the
rest of the listing, and `ReadInPages` puts together what `pages_partition_history` has
to say of all pages of all sizes.

Only the number of entries is bound, by `LogFits`, since who reads page by page has to
say how many entries come before.
-/
import BalanceLedger.Proofs.OldestFirst
import BalanceLedger.Proofs.Representation
import BalanceLedger.Proofs.Solvent

namespace BalanceLedger

open Store (Memory)
open Time (Instant)

/-! ## What is asked for -/

namespace HistoryQuery

def paged (q : HistoryQuery) (skip take : Int64) : HistoryQuery :=
  { q with page := .clamp skip take }

/-- The entry is one of those that the query asks for; a range of dates has both its ends. -/
structure AsksFor (q : HistoryQuery) (e : Entry) : Prop where
  account : e.account = q.account
  currency : ∀ c, q.currency = some c → e.currency = c
  side : ∀ s, q.side = some s → e.side = s
  since : ∀ t, q.since = some t → t ≤ e.date
  upTo : ∀ t, q.upTo = some t → e.date ≤ t

theorem selects_iff {q : HistoryQuery} {e : Entry} : q.selects e = true ↔ q.AsksFor e := by
  simp only [selects, Bool.and_eq_true, Option.all_eq_true, decide_eq_true_eq]
  constructor
  · rintro ⟨⟨⟨⟨account, currency⟩, side⟩, since⟩, upTo⟩
    exact ⟨account, fun c hc => (currency c hc).symm, fun s hs => (side s hs).symm, since, upTo⟩
  · rintro ⟨account, currency, side, since, upTo⟩
    exact ⟨⟨⟨⟨account, fun c hc => (currency c hc).symm⟩, fun s hs => (side s hs).symm⟩, since⟩,
      upTo⟩

end HistoryQuery

/-- What `clamp` makes of two words: numbers below nothing count as nothing, a page has an entry at
least, and it has as many as a page can have if more are asked for. -/
theorem Page.cut_clamp {α : Type} (skip take : Int64) (xs : List α) :
    (Page.clamp skip take).cut xs =
      (xs.drop (max 0 skip.toInt).toNat).take (max 1 (min take.toInt maxPageSize)).toNat := by
  have hskip : (max 0 skip.toInt).toNat = skip.toInt.toNat := by omega
  have htake : (max 1 (min take.toInt maxPageSize)).toNat =
      max 1 (min take.toInt.toNat maxPageSize) := by
    unfold maxPageSize
    omega
  rw [hskip, htake]
  rfl

/-! ## The listing -/

namespace Store.Memory

/-- The date of the first entry is later, or it is the same and the entry was committed later. -/
def IsNewer (p q : Entry × Nat) : Prop :=
  q.1.date < p.1.date ∨ q.1.date = p.1.date ∧ q.2 < p.2

/-- The entries of the log that a query `AsksFor`, with their places, newest first. -/
structure Lists (m : Memory) (q : HistoryQuery) (listing : List (Entry × Nat)) : Prop where
  mem_iff : ∀ e i, (e, i) ∈ listing ↔ m.entries[i]? = some e ∧ q.AsksFor e
  ordered : listing.Pairwise IsNewer

variable {m : Memory} {q : HistoryQuery}

theorem isNewer_of_le {p q : Entry × Nat} (hle : q.1.date ≤ p.1.date)
    (hplace : p.1.date ≤ q.1.date → q.2 < p.2) : IsNewer p q := by
  by_cases hlt : q.1.date < p.1.date
  · exact .inl hlt
  · have hback : p.1.date ≤ q.1.date := hlt
    exact .inr ⟨Time.Instant.le_antisymm hle hback, hplace hback⟩

section

variable {α : Type} (date : α → Instant)

theorem newer_trans (a b c : α) (hab : decide (date b ≤ date a) = true)
    (hbc : decide (date c ≤ date b) = true) : decide (date c ≤ date a) = true :=
  decide_eq_true (Time.Instant.le_trans (of_decide_eq_true hbc) (of_decide_eq_true hab))

theorem newer_total (a b : α) :
    (decide (date b ≤ date a) || decide (date a ≤ date b)) = true := by
  simpa using Time.Instant.le_total (date b) (date a)

end

theorem selected_eq_insertionSort (m : Memory) (q : HistoryQuery) :
    m.selected q = (m.entries.filter q.selects).reverse.insertionSort
      fun a b => decide (b.date ≤ a.date) = true :=
  mergeSort_eq_insertionSort_of_total (newer_trans Entry.date) (newer_total Entry.date) _

def listing (m : Memory) (q : HistoryQuery) : List (Entry × Nat) :=
  (m.entries.zipIdx.filter fun p => q.selects p.1).reverse.mergeSort
    fun a b => b.1.date ≤ a.1.date

theorem map_fst_listing (m : Memory) (q : HistoryQuery) :
    (m.listing q).map Prod.fst = m.selected q := by
  have hfilter : (m.entries.zipIdx.filter fun p => q.selects p.1).map Prod.fst =
      m.entries.filter q.selects := by
    rw [← List.zipIdx_map_fst 0 m.entries, List.filter_map, List.zipIdx_map_fst]
    rfl
  rw [listing, List.map_mergeSort (s := fun a b : Entry => decide (b.date ≤ a.date))
    fun _ _ _ _ => rfl, List.map_reverse, hfilter, selected]

theorem lists_listing (m : Memory) (q : HistoryQuery) : m.Lists q (m.listing q) := by
  constructor
  case mem_iff =>
    intro e i
    rw [listing, List.mem_mergeSort, List.mem_reverse, List.mem_filter,
      List.mem_zipIdx_iff_getElem?, HistoryQuery.selects_iff]
  case ordered =>
    -- before the sort, those that were committed later come first
    have hplaces : (m.entries.zipIdx.filter fun p => q.selects p.1).reverse.Pairwise
        fun p q => q.2 < p.2 := by
      refine List.pairwise_reverse.mpr (List.Pairwise.sublist List.filter_sublist ?_)
      refine List.pairwise_map.mp ?_
      rw [List.zipIdx_map_snd]
      exact List.pairwise_lt_range' 1
    let date (p : Entry × Nat) := p.1.date
    refine (pairwise_mergeSort_of_pairwise (newer_trans date) (newer_total date)
      hplaces).imp fun {p q} h => ?_
    exact isNewer_of_le (of_decide_eq_true h.1) fun hback => h.2 (decide_eq_true hback)

/-! ## Reading page by page -/

/-- Pages of one size are read one after the other, until one is empty. -/
inductive Reads (m : Memory) (q : HistoryQuery) (size : Int64) :
    Int64 → List HistoryPage → Prop
  | last {skip : Int64} {page : HistoryPage} (now : Instant)
      (answer : m.answer now (.history (q.paged skip size)) = (.ok page, m))
      (empty : page.entries = []) : Reads m q size skip [page]
  | next {skip : Int64} {page : HistoryPage} {pages : List HistoryPage} (now : Instant)
      (answer : m.answer now (.history (q.paged skip size)) = (.ok page, m))
      (more : page.entries ≠ []) (rest : Reads m q size (skip + size) pages) :
      Reads m q size skip (page :: pages)

/-- A log that fits a machine: it has no more bytes than the size of a list can say, and an entry
has more than one of them. -/
def LogFits (m : Memory) : Prop :=
  2 * (m.entries.length : Int) ≤ Word.maxInt64

/-- A listing is read page by page. -/
structure ReadInPages (m : Memory) (q : HistoryQuery) (listing : List (Entry × Nat)) : Prop
    extends m.Lists q listing where
  /-- A page, whatever is asked for, is a part of the listing and says how long it is. -/
  page : ∀ skip take now, ∃ page, m.answer now (.history (q.paged skip take)) = (.ok page, m) ∧
    page.entries = ((listing.map Prod.fst).drop (max 0 skip.toInt).toNat).take
      (max 1 (min take.toInt maxPageSize)).toNat ∧
    page.total.toInt = listing.length
  /-- Who reads pages of a size that there can be gets to an empty one. -/
  reaches : ∀ size : Int64, 1 ≤ size.toInt → size.toInt ≤ maxPageSize →
    ∃ pages, m.Reads q size 0 pages
  /-- The pages up to there make up the listing. -/
  partition : ∀ size : Int64, 1 ≤ size.toInt → size.toInt ≤ maxPageSize →
    ∀ pages, m.Reads q size 0 pages →
      pages.flatMap HistoryPage.entries = listing.map Prod.fst ∧
        ∀ page ∈ pages, page.total.toInt = listing.length

theorem length_selected_le (m : Memory) (q : HistoryQuery) :
    (m.selected q).length ≤ m.entries.length := by
  rw [selected, List.length_mergeSort, List.length_reverse]
  exact List.length_filter_le ..

theorem answer_paged (m : Memory) (q : HistoryQuery) (skip take : Int64) (now : Instant) :
    m.answer now (.history (q.paged skip take)) =
      (.ok { entries := (Page.clamp skip take).cut (m.selected q)
             total := .ofNat (m.selected q).length }, m) :=
  rfl

variable {skip size : Int64}

theorem eq_of_answer {now : Instant} {page : HistoryPage}
    (h : m.answer now (.history (q.paged skip size)) = (.ok page, m)) :
    page.entries = (Page.clamp skip size).cut (m.selected q) ∧
      page.total = .ofNat (m.selected q).length := by
  rw [answer_paged] at h
  obtain rfl := Except.ok.inj (congrArg Prod.fst h)
  exact ⟨rfl, rfl⟩

theorem cut_clamp_of_size {α : Type} (hskip : 0 ≤ skip.toInt) (hpos : 1 ≤ size.toInt)
    (hmax : size.toInt ≤ maxPageSize) (xs : List α) :
    (Page.clamp skip size).cut xs = (xs.drop skip.toInt.toNat).take size.toInt.toNat := by
  rw [Page.cut_clamp, max_eq_right hskip, min_eq_left hmax, max_eq_right hpos]

theorem cut_eq_nil_iff {α : Type} (hskip : 0 ≤ skip.toInt) (hpos : 1 ≤ size.toInt)
    (hmax : size.toInt ≤ maxPageSize) (xs : List α) :
    (Page.clamp skip size).cut xs = [] ↔ xs.length ≤ skip.toInt := by
  rw [cut_clamp_of_size hskip hpos hmax, List.take_eq_nil_iff, List.drop_eq_nil_iff]
  omega

theorem toInt_add_size (hfits : m.LogFits) (hskip : 0 ≤ skip.toInt) (hpos : 1 ≤ size.toInt)
    (hmax : size.toInt ≤ maxPageSize) (hmore : skip.toInt < (m.selected q).length) :
    (skip + size).toInt = skip.toInt + size.toInt := by
  have hlength := m.length_selected_le q
  refine Word.toInt_add_of_fits ⟨?_, ?_⟩
  · unfold Word.minInt64
    omega
  · unfold LogFits Word.maxInt64 at *
    unfold maxPageSize at hmax
    omega

theorem exists_reads (hfits : m.LogFits) (hskip : 0 ≤ skip.toInt) (hpos : 1 ≤ size.toInt)
    (hmax : size.toInt ≤ maxPageSize) : ∃ pages, m.Reads q size skip pages := by
  -- every page leaves fewer entries that come after it
  induction hleft : (m.selected q).length - skip.toInt.toNat using Nat.strong_induction_on
    generalizing skip with
  | _ left ih =>
      by_cases hempty : (Page.clamp skip size).cut (m.selected q) = []
      · exact ⟨_, .last .epoch (m.answer_paged q skip size .epoch) hempty⟩
      · have hmore : skip.toInt < (m.selected q).length := by
          rw [cut_eq_nil_iff hskip hpos hmax] at hempty
          omega
        have hnext := toInt_add_size (q := q) hfits hskip hpos hmax hmore
        obtain ⟨pages, hpages⟩ := ih _ (by omega) (by omega : 0 ≤ (skip + size).toInt) rfl
        exact ⟨_, .next .epoch (m.answer_paged q skip size .epoch) hempty hpages⟩

/-- What has been read from a place on is what the listing has from there on. -/
theorem Reads.flatMap_entries {pages : List HistoryPage} (h : m.Reads q size skip pages)
    (hfits : m.LogFits) (hskip : 0 ≤ skip.toInt) (hpos : 1 ≤ size.toInt)
    (hmax : size.toInt ≤ maxPageSize) :
    pages.flatMap HistoryPage.entries = (m.selected q).drop skip.toInt.toNat := by
  induction h with
  | @last skip page now answer empty =>
      obtain ⟨hentries, -⟩ := eq_of_answer answer
      have hend := (cut_eq_nil_iff hskip hpos hmax _).mp (hentries.symm.trans empty)
      rw [List.flatMap_singleton, empty, List.drop_eq_nil_of_le (by omega)]
  | @next skip page pages now answer more rest ih =>
      obtain ⟨hentries, -⟩ := eq_of_answer answer
      have hmore : skip.toInt < (m.selected q).length := by
        rw [hentries, ne_eq, cut_eq_nil_iff hskip hpos hmax] at more
        omega
      have hnext := toInt_add_size (q := q) hfits hskip hpos hmax hmore
      have hstart : (skip + size).toInt.toNat = skip.toInt.toNat + size.toInt.toNat := by omega
      rw [List.flatMap_cons, ih (by omega), hentries, cut_clamp_of_size hskip hpos hmax, hstart,
        ← List.drop_drop, List.take_append_drop]

theorem Reads.total {pages : List HistoryPage} (h : m.Reads q size skip pages) :
    ∀ page ∈ pages, page.total = .ofNat (m.selected q).length := by
  induction h with
  | last now answer _ =>
      intro page hpage
      obtain rfl := List.mem_singleton.mp hpage
      exact (eq_of_answer answer).2
  | next now answer _ _ ih =>
      intro page hpage
      rcases List.mem_cons.mp hpage with rfl | hpage
      · exact (eq_of_answer answer).2
      · exact ih page hpage

end Store.Memory

/-- Whatever the log holds and whatever is asked for, there is a listing of the entries that are
asked for, each of them once and newest first, and pages are parts of it that fit together. -/
theorem pages_partition_history (m : Memory) (q : HistoryQuery) (hfits : m.LogFits) :
    ∃ listing, m.ReadInPages q listing := by
  have hlisting := m.map_fst_listing q
  have hlength : (m.listing q).length = (m.selected q).length := by
    rw [← hlisting, List.length_map]
  have htotal : (Int64.ofNat (m.selected q).length).toInt = (m.listing q).length := by
    have hle := m.length_selected_le q
    unfold Memory.LogFits at hfits
    rw [hlength]
    exact Word.toInt_ofNat_of_le (by omega)
  refine ⟨m.listing q, m.lists_listing q, ?page, ?reaches, ?partition⟩
  case page =>
    intro skip take now
    refine ⟨_, m.answer_paged q skip take now, ?_, htotal⟩
    rw [hlisting]
    exact Page.cut_clamp skip take _
  case reaches =>
    intro size hpos hmax
    exact Memory.exists_reads hfits (Int.le_refl 0) hpos hmax
  case partition =>
    intro size hpos hmax pages hpages
    refine ⟨?_, fun page hpage => (congrArg Int64.toInt (hpages.total page hpage)).trans htotal⟩
    rw [hpages.flatMap_entries hfits (Int.le_refl 0) hpos hmax, hlisting]
    rfl

/-- Entries of one account that have come out of order.  Three of them are of one date, the second
of these is a debit, and the last entry is of another currency. -/
def outOfOrder : Memory where
  entries :=
    let entry (id : Nat) (seconds : Int) (side : Side) (currency : Currency) : Entry :=
      { id := ⟨BitVec.ofNat 128 id⟩, account := .nil, currency, side, amount := 5,
        description := "move", reference := none, transaction := none, target := none,
        date := { Instant.epoch with seconds }, runningBalance := 5, key := none }
    [entry 1 20 .credit dirham, entry 2 10 .credit dirham, entry 3 20 .debit dirham,
      entry 4 20 .credit dirham, entry 5 30 .credit dirham, entry 6 15 .credit ⟨"EUR", by decide⟩]

/-- The credits of that currency, from the earliest of these dates to the one that three entries
have. -/
def creditsUpToTied : HistoryQuery where
  account := .nil
  currency := some dirham
  side := some .credit
  since := some { Instant.epoch with seconds := 10 }
  upTo := some { Instant.epoch with seconds := 20 }

theorem pages_partition_history_outOfOrder :
    outOfOrder.LogFits ∧
      (outOfOrder.history (creditsUpToTied.paged 0 2)).entries.map Entry.id = [⟨4⟩, ⟨1⟩] ∧
      (outOfOrder.history (creditsUpToTied.paged 2 2)).entries.map Entry.id = [⟨2⟩] ∧
      (outOfOrder.history (creditsUpToTied.paged 4 2)).entries.map Entry.id = [] ∧
      (outOfOrder.history (creditsUpToTied.paged (-5) 0)).entries.map Entry.id = [⟨4⟩] ∧
      ∃ listing, outOfOrder.ReadInPages creditsUpToTied listing := by
  have hfits : outOfOrder.LogFits := by
    unfold Memory.LogFits
    decide
  simp only [Memory.history, Memory.selected_eq_insertionSort]
  exact ⟨hfits, by decide +kernel, by decide +kernel, by decide +kernel, by decide +kernel,
    pages_partition_history outOfOrder creditsUpToTied hfits⟩

end BalanceLedger
