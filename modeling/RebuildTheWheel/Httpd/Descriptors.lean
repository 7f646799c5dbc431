import RebuildTheWheel.Data.Path
import RebuildTheWheel.Httpd.Request

namespace RebuildTheWheel.Httpd

open Data Data.Ascii Data.Path

/-! Which requests stay below `htdocs`. -/

def Event.paths : Event → List Bytes
  | .stat path => [path]
  | .serveFile path => [path]
  | .executeCgi path _ _ => [path]
  | _ => []

/-- The paths handed to `stat`, `serve_file` and `execute_cgi`. -/
def handed (run : Run) : List Bytes := run.world.shown Event.paths

/-- Wherever the server runs, the path is that of `htdocs` or of something in it. -/
def Inside (path : Bytes) : Prop := ∀ cwd, (htdocs :: cwd) <:+ resolve cwd (segments path)

def Request.Supported (r : Request) : Prop :=
  sameCase r.method get = true ∨ sameCase r.method post = true

variable {sys : System} {path method query : Bytes}

theorem inside_index (path : Bytes) : Inside (path ++ slash :: indexHtml) ↔ Inside path := by
  have hindex : segments indexHtml = [indexHtml] := by decide
  have hname : IsName indexHtml := by decide
  have hne : htdocs ≠ indexHtml := by decide
  refine forall_congr' fun cwd => ?_
  rw [segments_append, hindex, resolve_append]
  change (htdocs :: cwd) <:+ enter (resolve cwd (segments path)) indexHtml ↔ _
  rw [enter_name hname, List.suffix_cons_iff]
  exact or_iff_right fun heq => hne (List.cons.inj heq).1

theorem inside_slash (path : Bytes) : Inside (path ++ [slash]) ↔ Inside path := by
  refine forall_congr' fun cwd => ?_
  rw [segments_append, resolve_append]
  rfl

theorem inside_pathOf (url : Bytes) : Inside (pathOf url) ↔ Inside (htdocs ++ url) := by
  unfold pathOf
  simp only
  split_ifs with hslash
  · obtain ⟨front, hfront⟩ := List.getLast?_eq_some_iff.mp hslash
    rw [hfront, List.append_assoc]
    exact (inside_index front).trans (inside_slash front).symm
  · rfl

theorem paths_startCgi (contentLength : Int32) (w : World) :
    (startCgi sys path method query contentLength w).shown Event.paths = w.shown Event.paths := by
  unfold startCgi
  split_ifs <;> simp [shown_attendCgi (f := Event.paths) (fun _ => rfl) (fun _ => rfl), Event.paths]

theorem paths_executeCgi (w : World) :
    (executeCgi sys path method query w).shown Event.paths = w.shown Event.paths := by
  unfold executeCgi
  simp only
  split_ifs <;> simp [paths_startCgi, Event.paths]

theorem paths_serveFile (w : World) :
    (serveFile sys path w).world.shown Event.paths = w.shown Event.paths := by
  unfold serveFile
  simp only
  split_ifs <;> simp [Event.paths]

theorem handed_answer (sys : System) (r : Request) (line : Bytes) (w : World) (hw : w.shown Event.paths = []) :
    ∃ rest, handed (answer sys r line w) = pathOf r.url :: rest ∧
      ∀ path ∈ rest, path = pathOf r.url ∨ path = pathOf r.url ++ slash :: indexHtml := by
  unfold answer
  simp only
  split
  · exact ⟨[], by simp [handed, hw, Event.paths], fun _ h => nomatch h⟩
  · rename_i st hst
    refine ⟨[if st.isDir then pathOf r.url ++ slash :: indexHtml else pathOf r.url], ?_, ?_⟩
    · split_ifs <;> simp [handed, paths_serveFile, paths_executeCgi, hw, Event.paths]
    · simp only [List.mem_singleton, forall_eq]
      split_ifs
      · exact .inr rfl
      · exact .inl rfl

theorem handed_closed (run : Run) :
    handed (do
      let w ← run
      .ok (w.log (.close .client))) = handed run := by
  cases run with
  | error w => rfl
  | ok w =>
      change (w.log (.close .client)).shown Event.paths = w.shown Event.paths
      simp [Event.paths]

theorem handed_unsupported (incoming : Incoming)
    (h : ¬(request sys (getLine (bufSize - 1) incoming).1).Supported) :
    handed (acceptRequest sys incoming) = [] := by
  have hmethod : (!sameCase (request sys (getLine (bufSize - 1) incoming).1).method get &&
      !sameCase (request sys (getLine (bufSize - 1) incoming).1).method post) = true := by
    simpa [Request.Supported] using h
  simp only [acceptRequest, hmethod, if_true]
  rfl

theorem handed_supported (incoming : Incoming)
    (h : (request sys (getLine (bufSize - 1) incoming).1).Supported) :
    handed (acceptRequest sys incoming) =
      handed (answer sys (request sys (getLine (bufSize - 1) incoming).1)
        (getLine (bufSize - 1) incoming).1 ⟨(getLine (bufSize - 1) incoming).2, []⟩) := by
  have hmethod : (!sameCase (request sys (getLine (bufSize - 1) incoming).1).method get &&
      !sameCase (request sys (getLine (bufSize - 1) incoming).1).method post) = false := by
    rcases h with h | h <;> simp [h]
  simp only [acceptRequest, hmethod]
  exact handed_closed _

/-- The server stays below `htdocs` if and only if the method is not supported, or the path enters
`htdocs` where it has come back to its start and does not climb out of it again. -/
theorem inside_handed_iff (sys : System) (incoming : Incoming) :
    (∀ path ∈ handed (acceptRequest sys incoming), Inside path) ↔
      ((request sys (getLine (bufSize - 1) incoming).1).Supported →
        ∃ before after, segments (htdocs ++ (request sys (getLine (bufSize - 1) incoming).1).url) =
            before ++ htdocs :: after ∧
          depth 0 before = some 0 ∧ (depth 0 after).isSome) := by
  have hname : IsName htdocs := by decide
  by_cases hmethod : (request sys (getLine (bufSize - 1) incoming).1).Supported
  · rw [handed_supported incoming hmethod]
    obtain ⟨rest, hpaths, hrest⟩ := handed_answer sys
      (request sys (getLine (bufSize - 1) incoming).1) (getLine (bufSize - 1) incoming).1
      ⟨(getLine (bufSize - 1) incoming).2, []⟩ rfl
    rw [hpaths, imp_iff_right hmethod, ← under_iff hname]
    refine List.forall_mem_cons.trans ((and_iff_left_of_imp fun hpath path hmem => ?_).trans
      (inside_pathOf _))
    rcases hrest path hmem with rfl | rfl
    · exact hpath
    · exact (inside_index _).mpr hpath
  · rw [handed_unsupported incoming hmethod]
    exact iff_of_true (fun path hmem => absurd hmem List.not_mem_nil) (absurd · hmethod)

/-- A server that finds no file. -/
def emptySystem : System where
  stat _ := none
  fopen _ := false
  cgiOutputPipe := true
  cgiInputPipe := true
  fork := true
  script := []
  requestBuf := []
  cgiBuf := []
  letter := 0

/-- `GET /../x` -/
theorem handed_climbs :
    ¬∀ (sys : System) (incoming : Incoming), ∀ path ∈ handed (acceptRequest sys incoming),
      Inside path := by
  intro h
  have hhanded : handed (acceptRequest emptySystem
      ([71, 69, 84, 32, 47, 46, 46, 47, 120, 13, 10, 13, 10].map some)) =
        [htdocs ++ [47, 46, 46, 47, 120]] := by decide
  have hinside := h _ _ (htdocs ++ [47, 46, 46, 47, 120]) (hhanded ▸ List.mem_singleton_self _) []
  revert hinside
  decide

end RebuildTheWheel.Httpd

namespace RebuildTheWheel.Httpd

open Data Data.Ascii

/-! Which requests leave descriptors open. -/

def Event.created : Event → List Fd
  | .pipe reading writing => [reading, writing]
  | _ => []

def Event.closed : Event → List Fd
  | .close fd => [fd]
  | _ => []

/-- The client and every end of a pipe have been closed once. -/
def Settled (w : World) : Prop :=
  (w.shown Event.closed).count .client = 1 ∧
    ∀ fd ∈ w.shown Event.created, (w.shown Event.closed).count fd = 1

/-- The content length that `execute_cgi` reads for a `POST`. -/
def contentLengthOf (sys : System) (incoming : Incoming) : Int32 :=
  (readHeaders (65 :: 0 :: sys.cgiBuf.drop 2) incoming).1

/-- `execute_cgi` is called, and does not stop at a `POST` without a length. -/
def NeedsPipes (sys : System) (r : Request) (incoming : Incoming) : Prop :=
  ∃ st, sys.stat (pathOf r.url) = some st ∧
    (sameCase r.method post || r.query.isSome || st.executable) = true ∧
    (sameCase r.method get = true ∨ contentLengthOf sys incoming ≠ -1)

/-- A pipe is there, but the second pipe or the child is not. -/
def PartlyFails (sys : System) : Prop :=
  sys.cgiOutputPipe = true ∧ (sys.cgiInputPipe && sys.fork) = false

/-- The descriptors that a function has created and closed since. -/
structure Uses (w w' : World) (created closed : List Fd) : Prop where
  created : w'.shown Event.created = w.shown Event.created ++ created
  closed : w'.shown Event.closed = w.shown Event.closed ++ closed

variable {sys : System} {path method query : Bytes} {w w' : World}

theorem Uses.of_ne (event : Event) (hcreated : event.created = []) (hclosed : event.closed = [])
    (w : World) : Uses w (w.log event) [] [] :=
  ⟨by simp [hcreated], by simp [hclosed]⟩

theorem attendCgi_uses (contentLength : Int32) (w : World) :
    Uses w (attendCgi sys method contentLength w) []
      [.cgiOutputWrite, .cgiInputRead, .cgiOutputRead, .cgiInputWrite] where
  created := by
    rw [shown_attendCgi (fun _ => rfl) (fun _ => rfl)]
    simp [Event.created]
  closed := by
    rw [shown_attendCgi (fun _ => rfl) (fun _ => rfl)]
    simp [Event.closed]

/-- A failure between the pipes and the child leaves what was created open. -/
theorem startCgi_uses (sys : System) (path method query : Bytes) (contentLength : Int32)
    (w : World) :
    ∃ created closed, Uses w (startCgi sys path method query contentLength w) created closed ∧
      Fd.client ∉ created ++ closed ∧ ((∀ fd ∈ created, closed.count fd = 1) ↔ ¬PartlyFails sys) := by
  unfold startCgi PartlyFails
  split_ifs with houtput hinput hfork
  · exact ⟨[], [], Uses.of_ne _ rfl rfl w, List.not_mem_nil, by simp_all⟩
  · exact ⟨[.cgiOutputRead, .cgiOutputWrite], [],
      ⟨by simp [Event.created], by simp [Event.closed]⟩, by decide,
      iff_of_false (by decide) (by simp_all)⟩
  · exact ⟨[.cgiOutputRead, .cgiOutputWrite, .cgiInputRead, .cgiInputWrite], [],
      ⟨by simp [Event.created], by simp [Event.closed]⟩, by decide,
      iff_of_false (by decide) (by simp_all)⟩
  · refine ⟨[.cgiOutputRead, .cgiOutputWrite, .cgiInputRead, .cgiInputWrite],
      [.cgiOutputWrite, .cgiInputRead, .cgiOutputRead, .cgiInputWrite], ⟨?_, ?_⟩, by decide, ?_⟩
    · rw [(attendCgi_uses contentLength _).created]
      simp [Event.created]
    · rw [(attendCgi_uses contentLength _).closed]
      simp [Event.closed]
    · exact iff_of_true (by decide) (by simp_all)

theorem Uses.incoming {created closed : List Fd} {incoming : Incoming}
    (h : Uses { w with incoming := incoming } w' created closed) : Uses w w' created closed :=
  ⟨h.created, h.closed⟩

theorem executeCgi_uses (sys : System) (path query : Bytes)
    (hmethod : sameCase method get = true ∨ sameCase method post = true)
    (w : World) :
    ∃ created closed, Uses w (executeCgi sys path method query w) created closed ∧
      Fd.client ∉ created ++ closed ∧ ((∀ fd ∈ created, closed.count fd = 1) ↔
        ¬((sameCase method get = true ∨ contentLengthOf sys w.incoming ≠ -1) ∧
          PartlyFails sys)) := by
  unfold executeCgi
  simp only
  split_ifs with hget hpost hlength
  · obtain ⟨created, closed, huses, hclient, hiff⟩ := startCgi_uses sys path method query (-1)
      { w with incoming := discardHeaders [65] w.incoming }
    exact ⟨created, closed, huses.incoming, hclient, by simpa [hget] using hiff⟩
  · refine ⟨[], [], (Uses.of_ne _ rfl rfl _).incoming, List.not_mem_nil, ?_⟩
    simp [hget, contentLengthOf, hlength]
  · obtain ⟨created, closed, huses, hclient, hiff⟩ := startCgi_uses sys path method query
      (contentLengthOf sys w.incoming)
      { w with incoming := (readHeaders (65 :: 0 :: sys.cgiBuf.drop 2) w.incoming).2 }
    exact ⟨created, closed, huses.incoming, hclient, by simpa [contentLengthOf, hlength] using hiff⟩
  · exact absurd hmethod (by simp [hget, hpost])

theorem serveFile_uses (h : serveFile sys path w = .ok w') : Uses w w' [] [] := by
  unfold serveFile at h
  simp only at h
  split_ifs at h
  obtain rfl := Except.ok.inj h
  exact (Uses.of_ne _ rfl rfl _).incoming

theorem answer_uses {r : Request} {line : Bytes} (hmethod : r.Supported)
    (h : answer sys r line w = .ok w') :
    ∃ created closed, Uses w w' created closed ∧ Fd.client ∉ created ++ closed ∧
      ((∀ fd ∈ created, closed.count fd = 1) ↔
        ¬(NeedsPipes sys r w.incoming ∧ PartlyFails sys)) := by
  unfold answer at h
  simp only at h
  split at h
  · rename_i hstat
    obtain rfl := Except.ok.inj h
    exact ⟨[], [], ⟨by simp [Event.created], by simp [Event.closed]⟩, List.not_mem_nil,
      by simp [NeedsPipes, hstat]⟩
  · rename_i st hstat
    generalize (if st.isDir then pathOf r.url ++ slash :: indexHtml else pathOf r.url) = path at h
    split_ifs at h with hcgi
    · have huses := serveFile_uses h
      refine ⟨[], [], ⟨?_, ?_⟩, List.not_mem_nil, ?_⟩
      · simpa [Event.created] using huses.created
      · simpa [Event.closed] using huses.closed
      · simp_all [NeedsPipes]
    · obtain rfl := Except.ok.inj h
      obtain ⟨created, closed, huses, hclient, hiff⟩ := executeCgi_uses sys path
        (r.query.getD []) hmethod
        ((w.log (.stat (pathOf r.url))).log (.executeCgi path r.method (r.query.getD [])))
      refine ⟨created, closed, ⟨?_, ?_⟩, hclient, ?_⟩
      · simpa [Event.created] using huses.created
      · simpa [Event.closed] using huses.closed
      · have hcgi : (sameCase r.method post || r.query.isSome || st.executable) = true := by
          simpa only [Bool.not_eq_true', Bool.not_eq_false] using hcgi
        simp only [NeedsPipes, hstat, Option.some.injEq, exists_eq_left', hcgi, true_and]
        exact hiff

/-- What the process holds when a request has been answered: the client is closed after a
supported method, and no pipe is left open unless the second one or the child fails. -/
theorem settled_iff (sys : System) (incoming : Incoming) (w : World)
    (h : acceptRequest sys incoming = .ok w) :
    Settled w ↔
      (request sys (getLine (bufSize - 1) incoming).1).Supported ∧
        ¬(NeedsPipes sys (request sys (getLine (bufSize - 1) incoming).1)
            (getLine (bufSize - 1) incoming).2 ∧
          PartlyFails sys) := by
  unfold acceptRequest at h
  simp only at h
  generalize request sys (getLine (bufSize - 1) incoming).1 = r at h ⊢
  split_ifs at h with hmethod
  · obtain rfl := Except.ok.inj h
    simp_all [Settled, Request.Supported, World.shown, World.log, Event.closed]
  · have hmethod : r.Supported := by
      by_contra hnone
      simp_all [Request.Supported]
    cases hanswer : answer sys r (getLine (bufSize - 1) incoming).1
        ⟨(getLine (bufSize - 1) incoming).2, []⟩ with
    | error w' =>
        rw [hanswer] at h
        cases (h : (Except.error w' : Run) = .ok w)
    | ok w' =>
        rw [hanswer] at h
        obtain rfl := Except.ok.inj h
        obtain ⟨created, closed, huses, hclient, hiff⟩ := answer_uses hmethod hanswer
        have hcreated : w'.shown Event.created = created := huses.created
        have hclosed : w'.shown Event.closed = closed := huses.closed
        rw [← hiff, and_iff_right hmethod]
        simp only [Settled, World.shown_log, hcreated, hclosed, Event.created, Event.closed,
          List.append_nil, List.count_append, List.count_singleton_self]
        rw [List.mem_append, not_or] at hclient
        rw [List.count_eq_zero.mpr hclient.2, and_iff_right rfl]
        refine forall₂_congr fun fd hfd => ?_
        have hne : fd ≠ Fd.client := fun heq => hclient.1 (heq ▸ hfd)
        rw [List.count_singleton, if_neg (by simpa using hne.symm), Nat.add_zero]

/-- `GET /x` -/
theorem settled_get : ∃ w,
    acceptRequest emptySystem ([71, 69, 84, 32, 47, 120, 13, 10, 13, 10].map some) = .ok w ∧
      Settled w := by
  have hrun : acceptRequest emptySystem ([71, 69, 84, 32, 47, 120, 13, 10, 13, 10].map some) =
      .ok ⟨[], [.stat (htdocs ++ [47, 120]), .reply .notFound, .close .client]⟩ := rfl
  refine ⟨_, hrun, (settled_iff _ _ _ hrun).mpr ⟨.inl (by decide), ?_⟩⟩
  rintro ⟨⟨st, hstat, -⟩, -⟩
  exact nomatch hstat

/-- `PUT /x` -/
theorem leaves_client : ¬∀ (sys : System) (incoming : Incoming) (w : World),
    acceptRequest sys incoming = .ok w → Settled w := by
  intro h
  have hsettled := h emptySystem ([80, 85, 84, 32, 47, 120, 13, 10].map some)
    ⟨[], [.reply .unimplemented]⟩ rfl
  exact absurd hsettled.1 (by decide)

end RebuildTheWheel.Httpd
