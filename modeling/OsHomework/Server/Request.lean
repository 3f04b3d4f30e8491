import Mathlib.Data.List.Infix
import OsHomework.Lib.Logged
import OsHomework.Lib.Printf
import OsHomework.Server.Queue
import OsHomework.Server.Rio

/-!
# The request handler

`request.c` on top of the wrappers of `segel.c`. A call keeps a log of what it writes into its buffers, of the
indices it reads, and of what it sends.

* `Event`, `Os`, `Sink`, `Conn`, `Stack`: what a call logs, and what it gets from the system, from the client,
  and from the uninitialised arrays of its frames;
* `put`: a string is written into an array. If it does not fit, the behaviour is undefined;
* `check`, `writen`: the wrappers. Where the call fails, `unix_error` ends the process;
* `requestParseURI`, `requestError`, `requestServeStatic`, `requestServeDynamic`, `requestHandle`.

A string that is built by formatting a buffer into itself is extended by `append`, which is what the library
does for it.
-/

set_option autoImplicit false

namespace OsHomework.Server

/-- `MAXBUF`. -/
def maxBuf : ℕ := 8192

/-- The kinds of response. -/
inductive Kind where
  | error | static | dynamic
  deriving DecidableEq

inductive Event where
  /-- A string is written into an array of `size` bytes. -/
  | store (size : ℕ) (s : List Char)
  /-- An index read from `uri`. -/
  | index (i : ℤ)
  /-- One of the three functions that respond is called. -/
  | serve (kind : Kind)
  /-- `Rio_writen`. -/
  | send (s : List Char)
  /-- The child runs a program, with this query string. -/
  | exec (filename cgiargs : List Char)

/-- `stats_t`. -/
structure Stats where
  handlerThreadId : ℤ
  handlerThreadReqCount : ℤ
  handlerThreadStaticReqCount : ℤ
  handlerThreadDynamicReqCount : ℤ

/-- What `stat` finds out: `S_ISREG`, `S_IRUSR`, `S_IXUSR` of the mode, and the size. -/
structure FileStat where
  isReg : Bool
  irusr : Bool
  ixusr : Bool
  stSize : ℤ

/-- The files and the process calls, as they are during the request. -/
structure Os where
  stat : List Char → Option FileStat
  openFile : List Char → Bool
  /-- The bytes of a mapping. -/
  mmap : List Char → (n : ℕ) → Option {s : List Char // s.length = n}
  closeFile : List Char → Bool
  munmap : List Char → ℕ → Bool
  fork : Bool
  waitpid : Bool

/-- The writing side of a connection. -/
structure Sink where
  /-- How much the next calls of `write` take at most, 0 if they are interrupted. -/
  takes : List ℕ
  /-- How many bytes are taken in all before the calls fail, if they do. -/
  room : Option ℕ

/-- A connection: the results of its reads and of its writes. -/
structure Conn where
  reads : List (Option Chunk)
  ending : ReadEnd
  sink : Sink

/-- What the uninitialised arrays hold, of `requestHandle` and (`hdr`) of `requestReadhdrs`. -/
structure Stack where
  buf : List Char
  method : List Char
  uri : List Char
  version : List Char
  cgiargs : List Char
  hdr : List Char

/-! ## The wrappers -/

def log (e : Event) : Logged Event Unit := ⟨[e], .ret ()⟩

/-- A string and its terminator are written into an array of `size` bytes. -/
def put (size : ℕ) (s : List Char) : Logged Event (List Char) :=
  ⟨[.store size s], if s.length < size then .ret s else .ub⟩

/-- Format a buffer and some more text into the buffer, line by line. -/
def append (size : ℕ) : List Char → List (List Char) → Logged Event (List Char)
  | buf, [] => pure buf
  | buf, l :: ls => do
    let buf ← put size (buf ++ l)
    append size buf ls

/-- `unix_error`, if a call has failed. -/
def check (ok : Bool) : Logged Event Unit := Logged.lift (if ok then .ret () else .exit 0)

/-- The loop of `rio_writen`, and whether it writes all `nleft` bytes. -/
def writenLoop : List ℕ → Option ℕ → ℕ → Sink × Bool
  | takes, room, 0 => (⟨takes, room⟩, true)
  | [], room, nleft + 1 => (⟨[], room.map (· - (nleft + 1))⟩, room.all (nleft + 1 ≤ ·))
  | k :: takes, room, nleft + 1 =>
    if room = some 0 then (⟨takes, room⟩, false)
    else
      let nwritten := min (min k (nleft + 1)) (room.getD k)
      writenLoop takes (room.map (· - nwritten)) (nleft + 1 - nwritten)

/-- `Rio_writen`. -/
def writen (sink : Sink) (s : List Char) : Logged Event Sink :=
  let (sink, ok) := writenLoop sink.takes sink.room s.length
  ⟨[.send s], if ok then .ret sink else .exit 0⟩

/-- `Rio_readinitb`. -/
def rioReadinitb (conn : Conn) : Rio := ⟨[], conn.reads, conn.ending⟩

/-- The conversion to `int`. -/
def toInt (x : ℤ) : ℤ := x.bmod (2 ^ 32)

/-- The conversion to `size_t`. -/
def toSize (x : ℤ) : ℕ := (x % 2 ^ 64).toNat

/-- `isspace`. -/
def isSpace (c : Char) : Bool := c ∈ [' ', '\t', '\n', '\x0b', '\x0c', '\r']

/-- The words that `%s` finds. -/
def words (s : List Char) : List (List Char) := (s.splitOnP isSpace).filter (· ≠ [])

/-- One `%s` of `sscanf`. If there is no word for it, the array stays as it is. -/
def scan (word : Option (List Char)) (array : List Char) : Logged Event (List Char) :=
  match word with
  | some w => put maxLine w
  | none => pure (cstr array)

/-! ## The functions of `request.c` -/

/-- The lines about the request and the thread, and what follows the last of them. -/
def statLines (stats : Stats) (arrivalTime dispatchInterval : ℚ) (ending : List Char) : List (List Char) :=
  ["Stat-Req-Arrival:: ".toList ++ fixed6 arrivalTime ++ crlf,
   "Stat-Req-Dispatch:: ".toList ++ fixed6 dispatchInterval ++ crlf,
   "Stat-Thread-Id:: ".toList ++ decimal stats.handlerThreadId ++ crlf,
   "Stat-Thread-Count:: ".toList ++ decimal stats.handlerThreadReqCount ++ crlf,
   "Stat-Thread-Static:: ".toList ++ decimal stats.handlerThreadStaticReqCount ++ crlf,
   "Stat-Thread-Dynamic:: ".toList ++ decimal stats.handlerThreadDynamicReqCount ++ ending]

/-- Format each line into `buf`, and write it to the connection. -/
def sendLines (sink : Sink) : List (List Char) → Logged Event Sink
  | [] => pure sink
  | l :: ls => do
    let buf ← put maxLine l
    let sink ← writen sink buf
    sendLines sink ls

/-- The lines of the body of an error message. -/
def errorBody (cause errnum shortmsg longmsg : List Char) : List (List Char) :=
  ["<html><title>OS-HW3 Error</title>".toList,
   "<body bgcolor=fffff>\r\n".toList,
   errnum ++ ": ".toList ++ shortmsg ++ crlf,
   "<p>".toList ++ longmsg ++ ": ".toList ++ cause ++ crlf,
   "<hr>OS-HW3 Web Server\r\n".toList]

/-- The lines before the body. -/
def errorHeader (errnum shortmsg body : List Char) (stats : Stats) (arrivalTime dispatchInterval : ℚ) :
    List (List Char) :=
  ["HTTP/1.0 ".toList ++ errnum ++ " ".toList ++ shortmsg ++ crlf,
   "Content-Type: text/html\r\n".toList,
   "Content-Length: ".toList ++ decimal body.length ++ crlf] ++
  statLines stats arrivalTime dispatchInterval (crlf ++ crlf)

def requestError (sink : Sink) (cause errnum shortmsg longmsg : List Char) (stats : Stats)
    (arrivalTime dispatchInterval : ℚ) : Logged Event Sink := do
  log (.serve .error)
  let body ← append maxBuf [] (errorBody cause errnum shortmsg longmsg)
  let sink ← sendLines sink (errorHeader errnum shortmsg body stats arrivalTime dispatchInterval)
  writen sink body

/-- `uri[strlen(uri)-1]`. -/
def lastChar (uri : List Char) : Logged Event Char :=
  ⟨[.index ((uri.length : ℤ) - 1)], match uri.getLast? with
    | some c => .ret c
    | none => .ub⟩

/-- Whether the content is static, the file name, and the arguments. `size` is the size of the three arrays,
`cgiargs` what the last one holds before. -/
def requestParseURI (size : ℕ) (uri cgiargs : List Char) : Logged Event (Bool × List Char × List Char) := do
  if "..".toList <:+: uri then
    let filename ← put size "./public/home.html".toList
    pure (true, filename, cgiargs)
  else if ¬ "cgi".toList <:+: uri then
    let cgiargs ← put size []
    let filename ← put size ("./public/".toList ++ uri)
    let last ← lastChar uri
    if last = '/' then
      let filename ← put size (filename ++ "home.html".toList)
      pure (true, filename, cgiargs)
    else pure (true, filename, cgiargs)
  else if '?' ∈ uri then
    let cgiargs ← put size (uri.dropWhile (· ≠ '?')).tail
    let filename ← put size ("./public/".toList ++ uri.takeWhile (· ≠ '?'))
    pure (false, filename, cgiargs)
  else
    let cgiargs ← put size []
    let filename ← put size ("./public/".toList ++ uri)
    pure (false, filename, cgiargs)

def requestGetFiletype (filename : List Char) : Logged Event (List Char) :=
  if ".html".toList <:+: filename then put maxLine "text/html".toList
  else if ".gif".toList <:+: filename then put maxLine "image/gif".toList
  else if ".jpg".toList <:+: filename then put maxLine "image/jpeg".toList
  else put maxLine "text/plain".toList

/-- The child of the `Fork` runs the program, and its own failure ends only the child. -/
def requestServeDynamic (os : Os) (sink : Sink) (filename cgiargs : List Char) (stats : Stats)
    (arrivalTime dispatchInterval : ℚ) : Logged Event Sink := do
  log (.serve .dynamic)
  let buf ← append maxLine [] (["HTTP/1.0 200 OK\r\n".toList, "Server: OS-HW3 Web Server\r\n".toList] ++
    statLines stats arrivalTime dispatchInterval crlf)
  let sink ← writen sink buf
  check os.fork
  log (.exec filename cgiargs)
  check os.waitpid
  pure sink

def requestServeStatic (os : Os) (sink : Sink) (filename : List Char) (filesize : ℤ) (stats : Stats)
    (arrivalTime dispatchInterval : ℚ) : Logged Event Sink := do
  log (.serve .static)
  let filetype ← requestGetFiletype filename
  check (os.openFile filename)
  match os.mmap filename (toSize filesize) with
  | none => Logged.lift (.exit 0)
  | some srcp =>
    check (os.closeFile filename)
    let buf ← append maxBuf [] (["HTTP/1.0 200 OK\r\n".toList, "Server: OS-HW3 Web Server\r\n".toList,
      "Content-Length: ".toList ++ decimal filesize ++ crlf, "Content-Type: ".toList ++ filetype ++ crlf] ++
      statLines stats arrivalTime dispatchInterval (crlf ++ crlf))
    let sink ← writen sink buf
    let sink ← writen sink srcp
    check (os.munmap filename (toSize filesize))
    pure sink

/-- `requestHandle` from the `stat` on. -/
def serveFile (os : Os) (sink : Sink) (isStatic : Bool) (filename cgiargs : List Char) (stats : Stats)
    (arrivalTime dispatchInterval : ℚ) : Logged Event Stats := do
  match os.stat filename with
  | none =>
    let _ ← requestError sink filename "404".toList "Not found".toList
      "OS-HW3 Server could not find this file".toList stats arrivalTime dispatchInterval
    pure stats
  | some sbuf =>
    if isStatic then
      if ¬ sbuf.isReg ∨ ¬ sbuf.irusr then
        let _ ← requestError sink filename "403".toList "Forbidden".toList
          "OS-HW3 Server could not read this file".toList stats arrivalTime dispatchInterval
        pure stats
      else
        let count ← Logged.lift (increment stats.handlerThreadStaticReqCount)
        let stats := { stats with handlerThreadStaticReqCount := count }
        let _ ← requestServeStatic os sink filename (toInt sbuf.stSize) stats arrivalTime dispatchInterval
        pure stats
    else
      if ¬ sbuf.isReg ∨ ¬ sbuf.ixusr then
        let _ ← requestError sink filename "403".toList "Forbidden".toList
          "OS-HW3 Server could not run this CGI program".toList stats arrivalTime dispatchInterval
        pure stats
      else
        let count ← Logged.lift (increment stats.handlerThreadDynamicReqCount)
        let stats := { stats with handlerThreadDynamicReqCount := count }
        let _ ← requestServeDynamic os sink filename cgiargs stats arrivalTime dispatchInterval
        pure stats

/-- `requestHandle` from the `sscanf` on; `buf` is the request line. -/
def handleLine (os : Os) (stack : Stack) (fuel : ℕ) (sink : Sink) (rio : Rio) (buf : List Char) (stats : Stats)
    (arrivalTime dispatchInterval : ℚ) : Logged Event Stats := do
  let method ← scan (words buf)[0]? stack.method
  let uri ← scan (words buf)[1]? stack.uri
  let _ ← scan (words buf)[2]? stack.version
  if method.map Char.toLower ≠ "get".toList then
    let _ ← requestError sink method "501".toList "Not Implemented".toList
      "OS-HW3 Server does not implement this method".toList stats arrivalTime dispatchInterval
    pure stats
  else
    let _ ← Logged.lift (requestReadhdrs fuel rio stack.hdr)
    let (isStatic, filename, cgiargs) ← requestParseURI maxLine uri (cstr stack.cgiargs)
    serveFile os sink isStatic filename cgiargs stats arrivalTime dispatchInterval

/-- `requestHandle` after the request has been counted. -/
def answer (os : Os) (stack : Stack) (fuel : ℕ) (conn : Conn) (stats : Stats)
    (arrivalTime dispatchInterval : ℚ) : Logged Event Stats := do
  let (rio, buf) ← Logged.lift (readlineb (rioReadinitb conn) stack.buf maxLine)
  handleLine os stack fuel conn.sink rio (cstr buf) stats arrivalTime dispatchInterval

/-- `requestHandle`, with the counters of the thread after it. -/
def requestHandle (os : Os) (stack : Stack) (fuel : ℕ) (conn : Conn) (stats : Stats)
    (arrivalTime dispatchInterval : ℚ) : Logged Event Stats := do
  let count ← Logged.lift (increment stats.handlerThreadReqCount)
  answer os stack fuel conn { stats with handlerThreadReqCount := count } arrivalTime dispatchInterval

end OsHomework.Server
