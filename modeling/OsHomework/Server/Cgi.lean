import OsHomework.Server.Fetch

/-!
# The program that the server runs

`output.c`, and a dynamic request for it from the client to the server and back.

* `spin`: `main` after it has slept; `spinReply`: its header and its body;
* **`spin_spec`**: it stays within its buffer for every time that it measures;
* **`fetch_spin`**: the client prints what it writes.
-/

set_option autoImplicit false

namespace OsHomework.Server

open Logged

/-- The lines of `content`. -/
def spinPage (elapsed : ℚ) : List (List Char) :=
  ["<p>Welcome to the CGI program</p>\r\n".toList, "<p>My only purpose is to waste time on the server!</p>\r\n".toList,
    "<p>I spun for ".toList ++ fixed 2 elapsed ++ " seconds</p>\r\n".toList]

/-- `main` of `output.c` from the first `sprintf` on, and what it writes. `elapsed` is `t2 - t1`. -/
def spin (elapsed : ℚ) : Logged Event (List Char) := do
  let content ← append maxBuf [] (spinPage elapsed)
  pure ("Content-length: ".toList ++ decimal content.length ++ crlf ++
    "Content-type: text/html\r\n\r\n".toList ++ content)

def spinReply (elapsed : ℚ) : Reply where
  header := ["Content-length: ".toList ++ decimal (spinPage elapsed).flatten.length ++ crlf,
    "Content-type: text/html\r\n".toList]
  body := (spinPage elapsed).flatten

section Spin

variable {elapsed : ℚ}

theorem length_spinPage (h : |elapsed| < 2 ^ 1024) : (spinPage elapsed).flatten.length < maxBuf := by
  have hlen : (fixed 2 elapsed).length ≤ 309 + 3 + 2 := length_fixed_le (by norm_num) (h.trans two_pow_lt)
  simp [spinPage, maxBuf]
  omega

/-- **It stays within its buffer**, and writes a header, an empty line and a page. -/
theorem spin_spec (h : |elapsed| < 2 ^ 1024) :
    (spin elapsed).out = .ret (spinReply elapsed).text ∧ Within Event.InBounds (spin elapsed) := by
  have hspec : Defined (append maxBuf [] (spinPage elapsed)) _ _ := format_spec (List.cons_ne_nil _ _)
  obtain ⟨ho, hw⟩ := hspec.ret (length_spinPage h)
  refine ⟨?_, hw.bind fun _ _ => .pure _⟩
  have hempty : "Content-type: text/html\r\n\r\n".toList = "Content-type: text/html\r\n".toList ++ crlf := by decide
  unfold spin
  rw [out_bind, ho, Outcome.ret_bind, out_pure, hempty]
  simp only [Reply.text, spinReply, List.flatten_cons, List.flatten_nil, List.append_assoc, List.nil_append]

theorem notMem_spinPage (elapsed : ℚ) : '\x00' ∉ (spinPage elapsed).flatten := by
  have hfixed : '\x00' ∉ fixed 2 elapsed := fun h => (clean_fixed 2 elapsed _ h).2.2 rfl
  simp [spinPage, hfixed]

theorem headerLine_spin (h : |elapsed| < 2 ^ 1024) : ∀ l ∈ (spinReply elapsed).header, HeaderLine l := by
  have hpage := length_spinPage h
  intro l hl
  simp only [spinReply, List.mem_cons, List.not_mem_nil, or_false] at hl
  rcases hl with rfl | rfl
  · refine headerLine_named 9 (by decide) (by decide) (by decide) (by decide) (clean_decimal _) ?_
    have hlen := length_decimal_le (x := (spinPage elapsed).flatten.length) (k := 4) (by norm_num) (by
      unfold maxBuf at hpage
      omega)
    have h₁ : "Content-length: ".toList.length = 16 := by decide
    have h₂ : crlf.length = 2 := rfl
    simp only [List.length_append, maxLine]
    omega
  · exact headerLine (l := "Content-type: text/html".toList) (by decide) (by decide) (by decide) ⟨none, by decide⟩

end Spin

/-- The counters after a dynamic request. -/
def Stats.spun (stats : Stats) : Stats :=
  { stats with
    handlerThreadReqCount := stats.handlerThreadReqCount + 1
    handlerThreadDynamicReqCount := stats.handlerThreadDynamicReqCount + 1 }

/-- **A dynamic request, from the client to the server and back.** The client has sent its request for the program
`output.c`, and the connection brings it to the server in any chunks: then the server counts the request and runs the
program with the arguments. Whatever time the program measures, it stays within its buffer; and if the connection brings
back what the server and the program write, in any chunks, and is then closed, the client ends and has printed the
lines of both headers and the page. -/
theorem fetch_spin {os : Os} {output : List Char → List Char → List Char} {stack : Stack} {uri hostname : List Char}
    {stats : Stats} {arrivalTime dispatchInterval elapsed : ℚ} {sbuf : FileStat} {sink sink' : Sink} {server : Conn}
    (hsend : (clientSend sink uri (some hostname)).out = .ret sink')
    (hstream : (rioReadinitb server).stream = sent (clientSend sink uri (some hostname)).log)
    (hword : IsWord uri) (hdynamic : isStatic uri = false) (hfile : (fileOf uri).length < maxLine)
    (hcount : stats.handlerThreadReqCount < intMax ∧ stats.handlerThreadDynamicReqCount < intMax)
    (hstat : os.stat (fileOf uri) = some sbuf) (hmode : sbuf.isReg ∧ sbuf.ixusr) (hcalls : os.fork ∧ os.waitpid)
    (helapsed : |elapsed| < 2 ^ 1024)
    (houtput : (spin elapsed).out = .ret (output (fileOf uri) (argsOf uri (cstr stack.cgiargs))))
    (hrange : InRange stats.spun arrivalTime dispatchInterval)
    (hroom : server.sink.Takes (programReply stats.spun arrivalTime dispatchInterval (spinReply elapsed)).text.length) :
    Within Event.InBounds (spin elapsed) ∧
      ∃ x, (∃ N, ∀ fuel, N ≤ fuel → requestHandle os stack fuel server stats arrivalTime dispatchInterval = x) ∧
        x.out = .ret stats.spun ∧
        ∀ (client : Conn) (buf : List Char), client.ending = .eof →
          (rioReadinitb client).stream = received output x.log → ∃ N, ∀ fuel, N ≤ fuel →
            Prints (clientPrint fuel client buf)
              (headerText (dynamicHeader stats.spun arrivalTime dispatchInterval ++ (spinReply elapsed).header) ++
                (spinPage elapsed).flatten) := by
  obtain ⟨hspin, hbounds⟩ := spin_spec helapsed
  have htext := Outcome.ret.inj (houtput.symm.trans hspin)
  obtain ⟨hlen, hsent⟩ := clientSend_sent hsend
  rw [hsent] at hstream
  have hanswers : Answers { stats with handlerThreadReqCount := stats.handlerThreadReqCount + 1 } arrivalTime
      dispatchInterval os output (fileOf uri) (argsOf uri (cstr stack.cgiargs)) (isStatic uri) stats.spun
      (programReply stats.spun arrivalTime dispatchInterval (spinReply elapsed)) := by
    rw [hdynamic]
    exact .program hstat hmode.1 hmode.2 hcalls.1 hcalls.2 htext (headerLine_spin helapsed) hcount.2
  obtain ⟨x, hx, ho, hreceived⟩ :=
    requestHandle_yields hanswers hrange hcount.1 hword hfile hlen hstream hroom
  refine ⟨hbounds, x, hx, ho, fun client buf hend hclient => ?_⟩
  exact hanswers.fetched hrange (notMem_spinPage elapsed) hend (hclient.trans hreceived) buf

/-- The request for the program, which runs for half a second. -/
def spinConn : Conn where
  reads := [some ⟨"GET /output.cgi?0.5 HTTP/1.1\nhost: a\n\r\n".toList, by decide, by decide⟩]
  ending := .failed
  sink := ⟨[], none⟩

theorem fetch_spin_half : Within Event.InBounds (spin (1 / 2)) ∧
    ∃ x, (∃ N, ∀ fuel, N ≤ fuel → requestHandle { helloFiles with stat := fun _ => some ⟨true, true, true, 3⟩ }
        (stackOf []) fuel spinConn noStats 0 0 = x) ∧
      x.out = .ret noStats.spun ∧
      ∀ (client : Conn) (buf : List Char), client.ending = .eof →
        (rioReadinitb client).stream = received (fun _ _ => (spinReply (1 / 2)).text) x.log → ∃ N, ∀ fuel, N ≤ fuel →
          Prints (clientPrint fuel client buf)
            (headerText (dynamicHeader noStats.spun 0 0 ++ (spinReply (1 / 2)).header) ++
              (spinPage (1 / 2)).flatten) := by
  have hsend : (clientSend ⟨[], none⟩ "/output.cgi?0.5".toList (some ['a'])).out = .ret ⟨[], none⟩ := rfl
  have hrange : InRange noStats.spun 0 0 := by constructor <;> norm_num [noStats, Stats.spun]
  have hone : |(1 / 2 : ℚ)| < 1 := by norm_num [abs_of_pos]
  have helapsed := hone.trans_le (one_le_pow₀ (by norm_num : (1 : ℚ) ≤ 2) (n := 1024))
  exact fetch_spin hsend rfl (by decide) (by decide) (by decide) ⟨by decide, by decide⟩ rfl ⟨rfl, rfl⟩ ⟨rfl, rfl⟩
    helapsed (spin_spec helapsed).1 hrange (fun r hr => by cases hr)

end OsHomework.Server
