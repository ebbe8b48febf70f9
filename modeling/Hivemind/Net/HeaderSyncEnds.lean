import Hivemind.Net.HeaderSync
import Mathlib.Data.List.ReduceOption

/-!
# The exchange of headers ends (`main.cpp`)

While the server stays as it is, each round of `getheaders` and `headers` brings the next 2000
headers of its active chain.

A message of 2000 headers is taken for one of several, so that one more request follows it; the
last message is the first one that is not full, and may be empty.  A request that names a block
of the server's chain as its `hashStop` gets the headers up to that block only, and is left out
here.

The next request has the locator of the last header that came, which starts on the server's
chain, so its fork is that header and nothing is repeated.  The client's index grows with every
header, and its active chain does not matter: it may stay where it is all along.

* `headersFrom_eq`: the loop of the server reads its chain off.
* `headersLoop_ok`: a reply whose headers are accepted is taken up to its last header.
* `round_spec`: what one round brings, and what the client asks next.
* `rounds_spec`: one round more than there are full messages.
* `run_syncs`: **the client gets the whole chain**, in `n / 2000 + 1` rounds for `n` headers.
-/

namespace Hivemind

open Codecs Forests Outcomes Runs HeaderNode

namespace HeaderSync

variable {hash : Bytes → Uint256} {genesis : Uint256} {node : HeaderNode}

/-! ## A server that stays as it is -/

/-- The active chain from the genesis block on. -/
def activeHashes (node : HeaderNode) : List Uint256 := node.chainActive.vChain.reduceOption

theorem map_some_reduceOption {α : Type} {l : List (Option α)} (h : ∀ x ∈ l, x.isSome = true) :
    l.reduceOption.map some = l := by
  induction l with
  | nil => rfl
  | cons x l ih =>
      obtain ⟨a, rfl⟩ := Option.isSome_iff_exists.mp (h x List.mem_cons_self)
      rw [List.reduceOption_cons_of_some, List.map_cons,
        ih fun y hy => h y (List.mem_cons_of_mem _ hy)]

theorem map_activeHashes (inv : HeaderNode.Inv hash genesis node) :
    (activeHashes node).map some = node.chainActive.vChain := by
  obtain ⟨tip, htip, hlen, hget⟩ := inv.chain
  apply map_some_reduceOption
  intro x hx
  obtain ⟨j, hj⟩ := List.mem_iff_getElem?.mp hx
  have hin := (List.getElem?_eq_some_iff.mp hj).1
  rw [hget j (by omega)] at hj
  obtain ⟨c, hc⟩ := Forest.ancestorAt_isSome (show j ≤ inv.skip.forest.depth tip by omega)
  rw [← Option.some.inj hj, hc]
  rfl

theorem get_eq (inv : HeaderNode.Inv hash genesis node) (i : Nat) :
    node.chainActive.get i = (activeHashes node)[i]? := by
  rw [CChain.get, Int.toNat_natCast, ← map_activeHashes inv, List.getElem?_map]
  split_ifs with hout
  · rw [List.length_map] at hout
    exact (List.getElem?_eq_none (by omega)).symm
  · cases (activeHashes node)[i]? <;> rfl

/-- The blocks of the active chain stand at their heights. -/
theorem activeHashes_spec (inv : HeaderNode.Inv hash genesis node) (i : Nat) (h : Uint256) :
    (activeHashes node)[i]? = some h ↔
      node.chainActive.contains node.links h = true ∧ (node.links.nHeight h).toNat = i := by
  have hheight := inv.skip.nHeight_eq h
  have hdepth : (node.links.nHeight h).toNat = inv.skip.forest.depth h := rfl
  rw [CChain.contains_iff_get, hheight, get_eq inv, Int.toNat_natCast]
  constructor
  · intro hi
    obtain ⟨tip, htip, hlen, hget⟩ := inv.chain
    have hvi : node.chainActive.vChain[i]? = some (some h) := by
      rw [← map_activeHashes inv, List.getElem?_map, hi, Option.map_some]
    have hin := (List.getElem?_eq_some_iff.mp hvi).1
    rw [hget i (by omega)] at hvi
    obtain rfl := Forest.depth_ancestorAt (Option.some.inj hvi)
    exact ⟨hi, rfl⟩
  · rintro ⟨hi, rfl⟩
    exact hi

theorem mem_activeHashes_iff (inv : HeaderNode.Inv hash genesis node) {h : Uint256} :
    h ∈ activeHashes node ↔ node.chainActive.contains node.links h = true := by
  rw [List.mem_iff_getElem?]
  constructor
  · rintro ⟨i, hi⟩
    exact ((activeHashes_spec inv i h).mp hi).1
  · intro hon
    exact ⟨_, (activeHashes_spec inv _ h).mpr ⟨hon, rfl⟩⟩

theorem next_eq (inv : HeaderNode.Inv hash genesis node) {i : Nat} {h : Uint256}
    (hi : (activeHashes node)[i]? = some h) :
    node.chainActive.next node.links h = (activeHashes node)[i + 1]? := by
  obtain ⟨hon, hheight⟩ := (activeHashes_spec inv i h).mp hi
  have hnonneg := inv.skip.nonneg h
  rw [CChain.next, if_pos hon, show node.links.nHeight h + 1 = ((i + 1 : Nat) : Int) by omega,
    get_eq inv]

/-- The loop over the active chain, when it does not stop early. -/
theorem headersFrom_eq (inv : HeaderNode.Inv hash genesis node) {hashStop : Uint256}
    (hstop : hashStop ∉ activeHashes node) (n i : Nat) :
    headersFrom node hashStop n (activeHashes node)[i]? = ((activeHashes node).drop i).take n := by
  induction n generalizing i with
  | zero => simp [headersFrom]
  | succ n ih =>
      cases hi : (activeHashes node)[i]? with
      | none =>
          rw [List.drop_eq_nil_of_le (List.getElem?_eq_none_iff.mp hi)]
          rfl
      | some h =>
          obtain ⟨hlt, hget⟩ := List.getElem?_eq_some_iff.mp hi
          have hne : h ≠ hashStop := by
            rintro rfl
            exact hstop (List.mem_of_getElem? hi)
          rw [headersFrom, if_neg hne, next_eq inv hi, ih, List.drop_eq_getElem_cons hlt, hget,
            List.take_succ_cons]

/-- The headers of the active chain above a height. -/
def headersAbove (node : HeaderNode) (i : Nat) : List CBlockHeader :=
  headersOf node ((activeHashes node).drop (i + 1))

/-- The next header goes into the index. -/
def feed (ctx : Context) (node : HeaderNode) (header : CBlockHeader) : Except Stop HeaderNode :=
  (node.acceptHeader ctx header).map Prod.snd

/-- What was fed is in the index. -/
theorem feed_has {ctx : Context} (hrules : Rules hash genesis ctx)
    (inv : HeaderNode.Inv hash genesis node) {headers : List CBlockHeader} {node' : HeaderNode}
    (hfeed : headers.foldlM (feed ctx) node = .ok node') :
    Grows node node' ∧ ∀ header ∈ headers, node'.links.Has (header.getHash hash) := by
  induction headers generalizing node with
  | nil =>
      obtain rfl := Except.ok.inj hfeed
      exact ⟨fun h hh => hh, by simp⟩
  | cons header headers ih =>
      rw [List.foldlM_cons] at hfeed
      obtain ⟨node₁, hfirst, hfeed⟩ := bind_eq_ok.mp hfeed
      obtain ⟨⟨pindex, node₁⟩, haccept, rfl⟩ := map_eq_ok.mp hfirst
      obtain ⟨inv₁, hgrows, -, hhas⟩ := inv.acceptHeader hrules haccept
      obtain ⟨hgrows', hall⟩ := ih inv₁ hfeed
      refine ⟨fun h hh => hgrows' h (hgrows h hh), ?_⟩
      simp only [List.forall_mem_cons]
      exact ⟨hgrows' _ hhas, hall⟩

/-- **A reply whose headers are accepted** is taken up to its last header. -/
theorem headersLoop_ok {ctx : Context} (hrules : Rules hash genesis ctx)
    (inv : HeaderNode.Inv hash genesis node) {pindexLast : Option CBlockIndex} {prev : Uint256}
    (hlast : ∀ p ∈ pindexLast, p.phashBlock = some prev) {headers : List CBlockHeader}
    (hcont : Continuous hash prev headers) {node' : HeaderNode}
    (hfeed : headers.foldlM (feed ctx) node = .ok node') :
    HeaderNode.Inv hash genesis node' ∧ ∃ last, headersLoop ctx node pindexLast headers =
      (.ok last, node') ∧ ∀ header ∈ headers.getLast?, ∃ p, last = some p ∧
        p.getBlockHash = header.getHash hash := by
  induction headers generalizing node pindexLast prev with
  | nil =>
      obtain rfl := Except.ok.inj hfeed
      exact ⟨inv, pindexLast, rfl, by simp⟩
  | cons header headers ih =>
      obtain ⟨hlink, hcont⟩ := hcont
      rw [List.foldlM_cons] at hfeed
      obtain ⟨node₁, hfirst, hfeed⟩ := bind_eq_ok.mp hfeed
      obtain ⟨⟨pindex, node₁⟩, haccept, rfl⟩ := map_eq_ok.mp hfirst
      obtain ⟨inv₁, -, hself, -⟩ := inv.acceptHeader hrules haccept
      have hlast' : ∀ p ∈ some pindex, p.phashBlock = some (header.getHash hash) := by
        rintro p ⟨⟩
        exact hself
      obtain ⟨inv', last, hloop, hend⟩ := ih inv₁ hlast' hcont hfeed
      refine ⟨inv', last, ?_, ?_⟩
      · rw [headersLoop, if_neg (continues_last hlast hlink), haccept]
        exact hloop
      · rw [List.getLast?_cons]
        rintro h ⟨⟩
        cases hlastHeader : headers.getLast? with
        | none =>
            obtain rfl := List.getLast?_eq_none_iff.mp hlastHeader
            obtain rfl : some pindex = last := Except.ok.inj (congrArg Prod.fst hloop)
            exact ⟨pindex, rfl, by rw [CBlockIndex.getBlockHash, hself]; rfl⟩
        | some h => exact hend h hlastHeader

/-- The blocks of the active chain have their headers. -/
theorem headersOf_spec (inv : HeaderNode.Inv hash genesis node) {hashes : List Uint256}
    (hhas : ∀ h ∈ hashes, node.links.Has h) :
    (headersOf node hashes).map (CBlockHeader.getHash hash) = hashes := by
  induction hashes with
  | nil => rfl
  | cons h hashes ih =>
      obtain ⟨header, hcons, hhash, -⟩ := headersOf_cons inv (hhas h List.mem_cons_self) hashes
      rw [hcons, List.map_cons, hhash, ih fun k hk => hhas k (List.mem_cons_of_mem h hk)]

/-- The reply to a locator whose fork with the active chain is at height `i`. -/
theorem serveHeaders_eq (inv : HeaderNode.Inv hash genesis node) {msg : GetHeaders}
    (hlocator : msg.locator ≠ []) (hstop : msg.hashStop ∉ activeHashes node) {i : Nat} {g : Uint256}
    (hi : (activeHashes node)[i]? = some g)
    (hfork : node.chainActive.findForkInGlobalIndex node.links msg.locator = some g) :
    serveHeaders node msg =
      some (headersOf node (((activeHashes node).drop (i + 1)).take maxHeadersResults)) := by
  rw [serveHeaders, headersStart, if_neg hlocator, hfork, Option.bind_some, next_eq inv hi,
    Option.map_some, headersFrom_eq inv hstop]

/-- The fork of a locator that starts on the active chain. -/
theorem findFork_of_head (inv : HeaderNode.Inv hash genesis node) {locator : List Uint256}
    {g : Uint256} (hhead : locator.head? = some g) (hon : g ∈ activeHashes node) :
    node.chainActive.findForkInGlobalIndex node.links locator = some g := by
  have hcontains := (mem_activeHashes_iff inv).mp hon
  cases locator with
  | nil => cases hhead
  | cons h rest =>
      obtain rfl := Option.some.inj hhead
      rw [CChain.findForkInGlobalIndex, List.find?_cons_of_pos (by
        simp [inv.contains hcontains, hcontains])]
      rfl

/-- The `headers` message whose loop ends well. -/
theorem processHeaders_eq {ctx : Context} {headers : List CBlockHeader}
    (hle : headers.length ≤ maxHeadersResults) {last : Option CBlockIndex} {node' : HeaderNode}
    (hloop : headersLoop ctx node none headers = (.ok last, node')) :
    processHeaders ctx node headers = (.ok (), node', if headers.length = maxHeadersResults then
      last.bind fun p => (node'.chainActive.getLocator node'.links (some p.getBlockHash)).map
        ({ locator := · }) else none) := by
  rw [processHeaders, if_neg (Nat.not_lt.mpr hle)]
  by_cases hnil : headers = []
  · subst hnil
    obtain rfl : node = node' := congrArg Prod.snd hloop
    rfl
  · rw [if_neg hnil, hloop]

/-- **One round**: the client gets the next headers.  It asks again after a full message. -/
theorem round_spec {s : HeaderSync} (inv : Inv hash genesis s) {ctx : Context}
    (hrules : Rules hash genesis ctx) {msg : GetHeaders} (hrequest : s.requests = [msg])
    (hreply : s.replies = []) (hstop : msg.hashStop ∉ activeHashes s.server) {i : Nat} {g : Uint256}
    (hi : (activeHashes s.server)[i]? = some g)
    (hfork : s.server.chainActive.findForkInGlobalIndex s.server.links msg.locator = some g)
    {client : HeaderNode}
    (hfeed : (headersAbove s.server i).foldlM (feed ctx) s.client = .ok client) :
    ∃ s', run step s [.serve, .headers ctx] = some s' ∧ s'.server = s.server ∧ s'.replies = [] ∧
      (((activeHashes s.server).length ≤ i + maxHeadersResults ∧ s'.requests = [] ∧
          s'.client = client) ∨
        ∃ g' locator, (activeHashes s.server)[i + maxHeadersResults]? = some g' ∧
          s'.requests = [{ locator }] ∧ locator.head? = some g' ∧
          (headersAbove s.server (i + maxHeadersResults)).foldlM (feed ctx) s'.client =
            .ok client) := by
  obtain ⟨hlocator, hknown⟩ := inv.requests msg (by simp [hrequest])
  have hserve := serveHeaders_eq inv.server hlocator hstop hi hfork
  obtain ⟨hle, prev, hprev, hcont⟩ := serveHeaders_spec inv.server hlocator hserve
  have hhasPrev : s.client.links.Has prev := by
    rcases hprev with hmem | rfl
    · exact hknown prev hmem
    · exact inv.client.skip.has_genesis
  set headers := headersOf s.server
    (((activeHashes s.server).drop (i + 1)).take maxHeadersResults) with hheaders
  have hhas : ∀ h ∈ ((activeHashes s.server).drop (i + 1)).take maxHeadersResults,
      s.server.links.Has h := by
    intro h hh
    exact inv.server.contains ((mem_activeHashes_iff inv.server).mp
      (List.mem_of_mem_drop (List.mem_of_mem_take hh)))
  have hhashes := headersOf_spec inv.server hhas
  have hlen : headers.length =
      min maxHeadersResults ((activeHashes s.server).length - (i + 1)) := by
    have hcount := congrArg List.length hhashes
    rwa [List.length_map, List.length_take, List.length_drop] at hcount
  -- the rest of the headers is fed afterwards
  have hsplit : headersAbove s.server i =
      headers ++ headersAbove s.server (i + maxHeadersResults) := by
    have hdrop := List.take_append_drop maxHeadersResults ((activeHashes s.server).drop (i + 1))
    rw [List.drop_drop, Nat.add_right_comm] at hdrop
    rw [hheaders, headersAbove, headersAbove, headersOf, headersOf, headersOf,
      ← List.filterMap_append, hdrop]
  rw [hsplit, List.foldlM_append] at hfeed
  obtain ⟨node₁, hfirst, hrest⟩ := bind_eq_ok.mp hfeed
  obtain ⟨inv₁, last, hloop, hlast⟩ :=
    @headersLoop_ok hash genesis s.client ctx hrules inv.client none prev (by simp) headers hcont
      node₁ hfirst
  have hprocess := processHeaders_eq hle hloop
  have hrun : run step s [.serve, .headers ctx] = some { s with
      client := node₁
      requests := (processHeaders ctx s.client headers).2.2.toList
      replies := []
      outcomes := s.outcomes ++ [.ok ()] } := by
    rw [run_cons_eq_some]
    refine ⟨{ s with requests := [], replies := [headers] }, ?_, ?_⟩
    · simp only [step, hrequest, hreply, hserve]
      rfl
    · simp only [run_cons, run_nil, step, hprocess]
      rfl
  refine ⟨_, hrun, rfl, rfl, ?_⟩
  rw [hprocess]
  by_cases hfull : headers.length = maxHeadersResults
  · have hin : i + maxHeadersResults < (activeHashes s.server).length := by
      rw [maxHeadersResults] at hlen hfull ⊢
      omega
    -- the client asks from the last header on
    have hend : (headers.getLast?).map (CBlockHeader.getHash hash) =
        (activeHashes s.server)[i + maxHeadersResults]? := by
      rw [← List.getLast?_map, hhashes, List.getLast?_eq_getElem?, List.length_take,
        List.length_drop, Nat.min_eq_left (by omega), List.getElem?_take_of_lt (by decide),
        List.getElem?_drop]
      exact congrArg _ (by rw [maxHeadersResults])
    rw [List.getElem?_eq_getElem hin] at hend
    obtain ⟨header, hheader, hhash⟩ := Option.map_eq_some_iff.mp hend
    obtain ⟨p, rfl, hp⟩ := hlast header hheader
    have hhasLast := (@headersLoop_spec hash genesis s.client ctx hrules inv.client none prev
      (by simp) hhasPrev headers hcont).2.2.2
    rw [hloop] at hhasLast
    obtain ⟨locator, hloc, hhead, -⟩ := getLocator_known inv₁ (hhasLast p rfl) Blob.null
    rw [hp, hhash] at hloc hhead
    refine Or.inr ⟨_, locator, List.getElem?_eq_getElem hin, ?_, hhead, hrest⟩
    simp [hfull, hp, hhash, hloc]
  · have hshort : (activeHashes s.server).length ≤ i + maxHeadersResults := by
      omega
    have hnil : (activeHashes s.server).drop (i + maxHeadersResults + 1) = [] :=
      List.drop_eq_nil_of_le (by omega)
    rw [headersAbove, hnil] at hrest
    exact Or.inl ⟨hshort, by simp [hfull], Except.ok.inj hrest⟩

/-- The messages of a number of rounds. -/
def rounds (ctx : Context) (n : Nat) : List Act :=
  (List.replicate n [Act.serve, Act.headers ctx]).flatten

theorem rounds_succ (ctx : Context) (n : Nat) :
    rounds ctx (n + 1) = [.serve, .headers ctx] ++ rounds ctx n := by
  rw [rounds, List.replicate_succ, List.flatten_cons]
  rfl

/-- **One round more than there are full messages** of the headers above the fork. -/
theorem rounds_spec {s : HeaderSync} (inv : Inv hash genesis s) {ctx : Context}
    (hrules : Rules hash genesis ctx) {msg : GetHeaders} (hrequest : s.requests = [msg])
    (hreply : s.replies = []) (hstop : msg.hashStop ∉ activeHashes s.server)
    (hnull : Blob.null ∉ activeHashes s.server) {i : Nat} {g : Uint256}
    (hi : (activeHashes s.server)[i]? = some g)
    (hfork : s.server.chainActive.findForkInGlobalIndex s.server.links msg.locator = some g)
    {client : HeaderNode}
    (hfeed : (headersAbove s.server i).foldlM (feed ctx) s.client = .ok client) :
    ∃ s', run step s (rounds ctx (((activeHashes s.server).length - (i + 1)) /
        maxHeadersResults + 1)) = some s' ∧
      s'.client = client ∧ s'.server = s.server ∧ s'.requests = [] ∧ s'.replies = [] := by
  generalize hn : (activeHashes s.server).length - (i + 1) = n
  induction n using Nat.strong_induction_on generalizing s msg i g with
  | _ n ih =>
      obtain ⟨s₁, hrun, hserver, hreply₁, hcases⟩ :=
        round_spec inv hrules hrequest hreply hstop hi hfork hfeed
      have hin := (List.getElem?_eq_some_iff.mp hi).1
      rcases hcases with ⟨hshort, hrequest₁, hclient⟩ | ⟨g', locator, hi', hrequest₁, hhead, hfeed'⟩
      · have hone : n / maxHeadersResults + 1 = 1 := by
          rw [maxHeadersResults] at hshort ⊢
          omega
        rw [hone]
        exact ⟨s₁, hrun, hclient, hserver, hrequest₁, hreply₁⟩
      · have hmem := List.mem_of_getElem? hi'
        have hin' := (List.getElem?_eq_some_iff.mp hi').1
        have inv₁ := run_inv_of_mem (Inv hash genesis)
          (fun _ a ha _ inv => inv.step (valid_round hrules a ha)) inv hrun
        have hless : (activeHashes s.server).length - (i + maxHeadersResults + 1) < n := by
          rw [maxHeadersResults] at hin' ⊢
          omega
        have hmore : n / maxHeadersResults + 1 = ((activeHashes s.server).length -
            (i + maxHeadersResults + 1)) / maxHeadersResults + 1 + 1 := by
          rw [maxHeadersResults] at hin' ⊢
          omega
        rw [← hserver] at hnull hi' hmem hfeed' hless hmore
        have hfork' := findFork_of_head inv₁.server hhead hmem
        obtain ⟨s', hrun', hclient, hserver', hrequest', hreply'⟩ :=
          ih _ hless inv₁ hrequest₁ hreply₁ hnull hnull hi' hfork' hfeed' rfl
        refine ⟨s', ?_, hclient, hserver'.trans hserver, hrequest', hreply'⟩
        rw [hmore, rounds_succ]
        exact run_append_eq_some.mpr ⟨s₁, hrun, hrun'⟩

/-- **The client gets the whole chain.**  From every state in which one request is on its
way that stops at no block of the server's chain, when the server stays as it is and the
client accepts its headers, the exchange ends after `n / 2000 + 1` rounds for `n` missing
headers: a full message of 2000 headers is always followed by one more request.  The client
has then exactly what it has after all headers above the fork one by one, and so all blocks
of the server's chain above the fork. -/
theorem run_syncs {header : CBlockHeader} (hgenesis : header.hashPrevBlock = Blob.null)
    (hne : header.getHash hash ≠ Blob.null) {acts : List Act} {s : HeaderSync}
    (hacts : ∀ a ∈ acts, a.Valid hash (header.getHash hash))
    (hrun : run step (start hash header) acts = some s) {ctx : Context}
    (hrules : Rules hash (header.getHash hash) ctx) {msg : GetHeaders}
    (hrequest : s.requests = [msg]) (hreply : s.replies = [])
    (hstop : msg.hashStop ∉ activeHashes s.server) (hnull : Blob.null ∉ activeHashes s.server)
    {i : Nat} {g : Uint256} (hi : (activeHashes s.server)[i]? = some g)
    (hfork : s.server.chainActive.findForkInGlobalIndex s.server.links msg.locator = some g)
    {client : HeaderNode}
    (hfeed : (headersAbove s.server i).foldlM (feed ctx) s.client = .ok client) :
    ∃ s', run step s (rounds ctx (((activeHashes s.server).length - (i + 1)) /
        maxHeadersResults + 1)) = some s' ∧
      s'.client = client ∧ s'.requests = [] ∧ s'.replies = [] ∧
      ∀ h ∈ (activeHashes s.server).drop (i + 1), s'.client.links.Has h := by
  have inv := inv_run hgenesis hne hacts hrun
  obtain ⟨s', hrounds, hclient, -, hrequest', hreply'⟩ :=
    rounds_spec inv hrules hrequest hreply hstop hnull hi hfork hfeed
  refine ⟨s', hrounds, hclient, hrequest', hreply', fun h hh => ?_⟩
  have hhashes := @headersOf_spec hash _ s.server inv.server
    ((activeHashes s.server).drop (i + 1)) fun k hk => inv.server.contains
      ((mem_activeHashes_iff inv.server).mp (List.mem_of_mem_drop hk))
  rw [← hhashes] at hh
  obtain ⟨fed, hfed, rfl⟩ := List.mem_map.mp hh
  rw [hclient]
  exact (feed_has hrules inv.client hfeed).2 fed hfed

/-- The client has the block after one round. -/
theorem exampleActs_syncs :
    ∃ s', run step exampleSync (rounds servedContext.toContext 1) = some s' ∧
      s'.client.links.Has (headerAlone.getHash exampleHash) := by
  have hfeed : ((headersAbove exampleSync.server 0).foldlM (feed servedContext.toContext)
      exampleSync.client).isOk = true := by decide +kernel
  cases hclient : (headersAbove exampleSync.server 0).foldlM (feed servedContext.toContext)
      exampleSync.client with
  | error e =>
      rw [hclient] at hfeed
      cases hfeed
  | ok client =>
      have hrequest : exampleSync.requests = [⟨[firstServed.getHash exampleHash], Blob.null⟩] := by
        decide +kernel
      have hchain : activeHashes exampleSync.server =
          [firstServed.getHash exampleHash, headerAlone.getHash exampleHash] := by decide +kernel
      have hnull : Blob.null ∉ activeHashes exampleSync.server := by
        rw [hchain]
        decide +kernel
      obtain ⟨s', hrun, -, -, -, hhas⟩ := run_syncs (by decide +kernel) (by decide +kernel)
        exampleActs_valid run_exampleActs exampleRules hrequest (by decide +kernel) hnull hnull
        (by rw [hchain]; rfl) (by decide +kernel) hclient
      rw [hchain] at hrun hhas
      exact ⟨s', hrun, hhas _ (by simp)⟩

end HeaderSync

end Hivemind
