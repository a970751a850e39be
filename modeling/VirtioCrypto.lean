import VirtioCrypto.Octets.CString
import VirtioCrypto.Octets.Libc
import VirtioCrypto.Octets.Space
import VirtioCrypto.Octets.Memory
import VirtioCrypto.Octets.Scatter
import VirtioCrypto.Chaining
import VirtioCrypto.Transition
import VirtioCrypto.Ring
import VirtioCrypto.Pipe
import VirtioCrypto.Virtqueue
import VirtioCrypto.Wire
import VirtioCrypto.Cryptodev.Direct
import VirtioCrypto.Cryptodev.Footprint
import VirtioCrypto.Cryptodev.Async
import VirtioCrypto.Cryptodev.Jobs
import VirtioCrypto.Cryptodev.Pages
import VirtioCrypto.Cryptodev.Pinning
import VirtioCrypto.Cryptodev.ZeroCopy
import VirtioCrypto.Cryptodev.Aead
import VirtioCrypto.Cryptodev.Record
import VirtioCrypto.Cryptodev.Tls
import VirtioCrypto.Cryptodev.Srtp
import VirtioCrypto.Cryptodev.SharedPages
import VirtioCrypto.Host.Vring
import VirtioCrypto.Host.RingQueue
import VirtioCrypto.Host.Notify
import VirtioCrypto.Host.Isolation
import VirtioCrypto.Host.Serve
import VirtioCrypto.Host.Handle
import VirtioCrypto.Host.Separation
import VirtioCrypto.Host.Numbering
import VirtioCrypto.Host.Accepted
import VirtioCrypto.Host.Returned
import VirtioCrypto.Guest.Stream
import VirtioCrypto.Guest.Ownership
import VirtioCrypto.Guest.Lifecycle
import VirtioCrypto.Guest.Capacity
import VirtioCrypto.Guest.Buffers
import VirtioCrypto.Guest.Delivery
import VirtioCrypto.Guest.Residue
import VirtioCrypto.Proxy.Copies
import VirtioCrypto.Proxy.Transparent
import VirtioCrypto.Proxy.Control
import VirtioCrypto.Shell.RoundTrip
import VirtioCrypto.Shell.Registers
import VirtioCrypto.Shell.Popen
import VirtioCrypto.Shell.Reply
import VirtioCrypto.Shell.Bounds
