import Cleonos.Kernel.Paths
import Cleonos.Lib.Run
import Cleonos.Libc.Stdlib

/-!
# The web server

`httpd_main.c` reads a request, builds the path of a file from it and sends that file.
-/

namespace Cleonos.Httpd

open Attempt (succeed check)
open Kernel (pathMax kernelPath statType)
open LexicalPath (slash dot)
open Libc (decimal)

/-- `HTTPD_REQ_MAX`. -/
def reqMax : ℕ := 4096

/-- `HTTPD_FILE_CHUNK`. -/
def fileChunk : ℕ := 2048

/-- The size of the buffers for a header. -/
def headerMax : ℕ := 256

def backslash : UInt8 := 92
def space : UInt8 := 32
def question : UInt8 := 63

/-! ## The kernel -/

/-- The files, and what the kernel answers at each call: the bytes that have come in, how many
bytes a send takes, whether a file is opened, how many bytes a read gives, or an error, and what
a device gives. -/
structure System where
  tree : FileTree (List UInt8)
  incoming : ℕ → List UInt8
  takes : ℕ → ℕ
  opens : ℕ → Bool
  gives : ℕ → Option ℕ
  device : ℕ → List UInt8
  deviceSize : UInt64
  sizes : ∀ key data, tree.node key = some (.file data) → data.length < 2 ^ 64

/-- The paths that were given to `fd_open`, the bytes that were sent, the place in the open file,
and the number of calls made. -/
structure World where
  opened : List (List UInt8)
  sent : List UInt8
  offset : ℕ
  calls : ℕ

variable (kernel : System)

/-- `cleonos_sys_net_tcp_recv`: at most `capacity` bytes, none for a failure. -/
def tcpRecv (capacity : ℕ) (w : World) : List UInt8 × World :=
  ((kernel.incoming w.calls).take capacity, { w with calls := w.calls + 1 })

/-- `cleonos_sys_net_tcp_send`: the number of bytes taken, 0 for a failure. -/
def tcpSend (data : List UInt8) (w : World) : ℕ × World :=
  let sent := min (kernel.takes w.calls) data.length
  (sent, { w with sent := w.sent ++ data.take sent, calls := w.calls + 1 })

def nodeAt (path : List UInt8) : Option Node := (kernelPath path).bind kernel.tree.node

/-- `cleonos_sys_fs_stat_size`. -/
def statSize (path : List UInt8) : UInt64 :=
  match nodeAt kernel path with
  | some .dir => 0
  | some (.file data) => UInt64.ofNat data.length
  | some .device => kernel.deviceSize
  | none => 0 - 1

/-- `cleonos_sys_fd_open` with `O_RDONLY`. -/
def fdOpen (path : List UInt8) (w : World) : Option (List UInt8) × World :=
  let w' : World := ⟨w.opened ++ [path], w.sent, 0, w.calls + 1⟩
  if nodeAt kernel path = none ∨ kernel.opens w.calls = false then (none, w') else (some path, w')

/-- `cleonos_sys_fd_read`: a file is read from where the last read ended, and a read of it gives
a byte at least while there is one. -/
def fdRead (fd : List UInt8) (size : ℕ) (w : World) : Option (List UInt8) × World :=
  match kernel.gives w.calls, nodeAt kernel fd with
  | some n, some (.file data) =>
    let got := (data.drop w.offset).take (min (n + 1) size)
    (some got, { w with offset := w.offset + got.length, calls := w.calls + 1 })
  | some _, some .device =>
    (some ((kernel.device w.calls).take size), { w with calls := w.calls + 1 })
  | _, _ => (none, { w with calls := w.calls + 1 })

/-- `httpd_send_all`; each round takes a byte at least. -/
def sendAll : ℕ → List UInt8 → Attempt World
  | _, [] => succeed
  | 0, _ => check false
  | fuel + 1, data => fun w =>
    let (sent, w) := tcpSend kernel data w
    if sent = 0 then (false, w) else sendAll fuel (data.drop sent) w

def crlf : List UInt8 := [13, 10]

/-- The lines of a header, and the empty line. -/
def header (lines : List (List UInt8)) : List UInt8 :=
  lines.flatMap (fun line => line ++ crlf) ++ crlf

def textHeader (code : ℕ) (reason body : List UInt8) : List UInt8 :=
  header [lit "HTTP/1.1 " ++ decimal code ++ [space] ++ reason, lit "Server: cleonos-httpd/0.1",
    lit "Content-Type: text/plain; charset=utf-8",
    lit "Content-Length: " ++ decimal body.length, lit "Connection: close"]

/-- `httpd_send_text_response`. -/
def sendTextResponse (code : ℕ) (reason body : List UInt8) : Attempt World :=
  let text := textHeader code reason body
  if text.length ≥ headerMax then check false
  else
    (sendAll kernel text.length text).andThen <|
      if body.length > 0 then sendAll kernel body.length body else succeed

/-- The loop of `httpd_safe_path`. -/
def safePathLoop : List UInt8 → Bool
  | [] => true
  | c :: rest =>
    if c = backslash then false
    else if c = dot ∧ rest.getD 0 0 = dot then false
    else safePathLoop rest

/-- `httpd_safe_path`. -/
def safePath (path : List UInt8) : Bool :=
  if path.headD 0 ≠ slash then false else safePathLoop path

/-- `httpd_build_file_path`. -/
def buildFilePath (outSize : ℕ) (root urlPath : List UInt8) : Option (List UInt8) :=
  if outSize = 0 then none
  else if safePath urlPath = false then none
  else
    let suffix := if urlPath = [slash] then lit "/index.html" else urlPath
    if (root ++ suffix).length < outSize then some (root ++ suffix) else none

/-- `strrchr(path, '.')`. -/
def extension (path : List UInt8) : Option (List UInt8) :=
  if dot ∈ path then some (dot :: (path.reverse.takeWhile (· ≠ dot)).reverse) else none

/-- `httpd_content_type`. -/
def contentType (path : List UInt8) : List UInt8 :=
  match extension path with
  | none => lit "application/octet-stream"
  | some ext =>
    if ext = lit ".html" ∨ ext = lit ".htm" then lit "text/html; charset=utf-8"
    else if ext = lit ".txt" ∨ ext = lit ".log" then lit "text/plain; charset=utf-8"
    else if ext = lit ".css" then lit "text/css; charset=utf-8"
    else if ext = lit ".js" then lit "application/javascript"
    else if ext = lit ".png" then lit "image/png"
    else if ext = lit ".jpg" ∨ ext = lit ".jpeg" then lit "image/jpeg"
    else if ext = lit ".gif" then lit "image/gif"
    else lit "application/octet-stream"

def fileHeader (path : List UInt8) (size : UInt64) : List UInt8 :=
  header [lit "HTTP/1.1 200 OK", lit "Server: cleonos-httpd/0.1",
    lit "Content-Type: " ++ contentType path, lit "Content-Length: " ++ decimal size.toNat,
    lit "Connection: close"]

/-- The loop of `httpd_send_file`, for so many reads at most. -/
def fileLoop (fd : List UInt8) : ℕ → Attempt World
  | 0 => check false
  | reads + 1 => fun w =>
    match fdRead kernel fd fileChunk w with
    | (none, w) => (false, w)
    | (some got, w) =>
      if got.length = 0 then (true, w)
      else (sendAll kernel got.length got).andThen (fileLoop fd reads) w

/-- `httpd_send_file`. -/
def sendFile (reads : ℕ) (path : List UInt8) : Attempt World := fun w =>
  let size := statSize kernel path
  if size = 0 - 1 ∨ statType kernel.tree path ≠ 1 then
    sendTextResponse kernel 404 (lit "Not Found") (lit "not found\n") w
  else
    match fdOpen kernel path w with
    | (none, w) => sendTextResponse kernel 403 (lit "Forbidden") (lit "open failed\n") w
    | (some fd, w) =>
      let text := fileHeader path size
      if text.length ≥ headerMax then (false, w)
      else (sendAll kernel text.length text).andThen (fileLoop kernel fd reads) w

/-- `httpd_parse_request_path`. -/
def parseRequestPath (outSize : ℕ) (req : List UInt8) : Option (List UInt8) :=
  if ¬ lit "GET " <+: req then none
  else
    let text := req.drop 4
    if space ∉ text then none
    else
      let path := text.takeWhile (· ≠ space)
      if path.length = 0 ∨ path.length ≥ outSize then none else some path

/-- `httpd_strip_query`. -/
def stripQuery (path : List UInt8) : List UInt8 := path.takeWhile (· ≠ question)

def blankLine (req : List UInt8) : Bool :=
  decide ([13, 10, 13, 10] <:+: req) || decide ([10, 10] <:+: req)

/-- The loop that receives a request: nothing for one that is too large. -/
def recvLoop : ℕ → List UInt8 → World → Option (List UInt8) × World
  | 0, _, w => (none, w)
  | fuel + 1, buf, w =>
    if buf.length ≥ reqMax then (none, w)
    else
      let (got, w) := tcpRecv kernel (reqMax - buf.length) w
      if got.length = 0 then (some buf, w)
      else
        let buf := buf ++ got
        if blankLine (cstr buf) then (some buf, w) else recvLoop fuel buf w

/-- `httpd_handle_client`; a file is read `reads` times at most. -/
def handleClient (reads : ℕ) (root : List UInt8) : Attempt World := fun w =>
  match recvLoop kernel (reqMax + 1) [] w with
  | (none, w) =>
    sendTextResponse kernel 413 (lit "Payload Too Large") (lit "request too large\n") w
  | (some buf, w) =>
    if buf.length = 0 then (false, w)
    else
      match parseRequestPath pathMax (cstr buf) with
      | none =>
        sendTextResponse kernel 405 (lit "Method Not Allowed")
          (lit "only GET is supported\n") w
      | some urlPath =>
        match buildFilePath pathMax root (stripQuery urlPath) with
        | none => sendTextResponse kernel 400 (lit "Bad Request") (lit "bad path\n") w
        | some filePath => sendFile kernel reads filePath w

end Cleonos.Httpd
