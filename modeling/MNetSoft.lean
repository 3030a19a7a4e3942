import MNetSoft.Core.Runs
import MNetSoft.Core.Proc
import MNetSoft.Core.Effects
import MNetSoft.Core.Traces
import MNetSoft.Core.Nested
import MNetSoft.Core.FileTree
import MNetSoft.Core.Records
import MNetSoft.Core.CString
import MNetSoft.Core.Pieces
import MNetSoft.Core.Words
import MNetSoft.Core.Memory
import MNetSoft.Core.Rounding
import MNetSoft.Core.Radix
import MNetSoft.Core.BinarySearch
import MNetSoft.Core.Slice
import MNetSoft.Core.SortedTable
import MNetSoft.Core.Terminal
import MNetSoft.Core.Numerals
import MNetSoft.Core.Probing
import MNetSoft.Core.LinkedList
import MNetSoft.Core.Saturation
import MNetSoft.Core.Grouping
import MNetSoft.Core.Bubble
import MNetSoft.Core.SearchTree
import MNetSoft.Core.Rewriting
import MNetSoft.Bank.Records
import MNetSoft.Bank.TransFile
import MNetSoft.Bank.TransBytes
import MNetSoft.Bank.Lock
import MNetSoft.Bank.Customer
import MNetSoft.Bank.Ledger
import MNetSoft.Bank.Overdraft
import MNetSoft.Bank.OpenDelay
import MNetSoft.Bank.Atomicity
import MNetSoft.Bank.TransLog
import MNetSoft.Bank.Bankers
import MNetSoft.Bank.Wealthy
import MNetSoft.Bank.Overflow
import MNetSoft.GrexHash.Text
import MNetSoft.GrexHash.Buffer
import MNetSoft.GrexHash.Realm
import MNetSoft.Libgrex.Warning
import MNetSoft.Zapuser.Immortal
import MNetSoft.Zapuser.Users
import MNetSoft.Zapuser.Passwd
import MNetSoft.Zapuser.Outbound
import MNetSoft.Zapuser.Deletion
import MNetSoft.Zapuser.MoveMail
import MNetSoft.Zapuser.Member
import MNetSoft.Zapuser.Rmdir
import MNetSoft.Sbin.Reapcheck
import MNetSoft.Sbin.Doreap
import MNetSoft.Sbin.Webauthd
import MNetSoft.Sbin.Base64
import MNetSoft.Sbin.Dovalidate
import MNetSoft.Sbin.Mkusers
import MNetSoft.Bbsread.Part
import MNetSoft.Bbsread.PartFile
import MNetSoft.Bbsread.Sum
import MNetSoft.Bbsread.Item
import MNetSoft.Bbsread.Copyto
import MNetSoft.Bbsread.ItemText
import MNetSoft.Bbsread.Forget
import MNetSoft.Bbsread.Match
import MNetSoft.Bbsread.Args
import MNetSoft.Bbsread.Session
import MNetSoft.Vote.Ballot
import MNetSoft.Vote.Record
import MNetSoft.Vote.Booth
import MNetSoft.Vote.Polls
import MNetSoft.Vote.Rndorder
import MNetSoft.Vote.Candlist
import MNetSoft.Vote.Urldecode
import MNetSoft.Vote.Webcast
import MNetSoft.Pnewuser.Fields
import MNetSoft.Pnewuser.Basedir
import MNetSoft.Pnewuser.Session
import MNetSoft.Pnewuser.Report
import MNetSoft.Pnewuser.LoginLock
import MNetSoft.Pnewuser.Release
import MNetSoft.Pnewuser.Dialogue
import MNetSoft.Pnewuser.Login
import MNetSoft.Pnewuser.Setquota
import MNetSoft.Pnewuser.Uidrange
import MNetSoft.Pnewuser.Wrapper
import MNetSoft.Robocop.Tables
import MNetSoft.Robocop.Usermem
import MNetSoft.Robocop.Strtoc
import MNetSoft.Robocop.Wire
import MNetSoft.Robocop.Grammar
import MNetSoft.Robocop.Reboot
import MNetSoft.Robocop.Orphans
import MNetSoft.Robocop.Monotone
import MNetSoft.Robocop.Scan
import MNetSoft.Robocop.Orphline
import MNetSoft.Robocop.Killuser
import MNetSoft.Robocop.Patrol
import MNetSoft.Robocop.Grounds
import MNetSoft.Cflbuild.List
import MNetSoft.Cflbuild.Names
import MNetSoft.Cflbuild.Session
import MNetSoft.Cflbuild.Swap
import MNetSoft.Cflbuild.Sort
import MNetSoft.Cflbuild.Load
import MNetSoft.Resh.Token
import MNetSoft.Resh.Bounds
import MNetSoft.Resh.Fortune
import MNetSoft.Resh.Pager
import MNetSoft.Resh.Session
import MNetSoft.Menu.Shell
import MNetSoft.Menu.Runs
import MNetSoft.Cmd.Watch
import MNetSoft.Cmd.Interests
import MNetSoft.Cmd.Whoa
import MNetSoft.Cmd.Ylc
import MNetSoft.Cmd.YlcDir
import MNetSoft.Cmd.Ttyuse
import MNetSoft.Cmd.TtyuseTotals
import MNetSoft.Games.Letter
import MNetSoft.Games.LetterLine
import MNetSoft.Games.LetterScore
import MNetSoft.Games.LetterGame
import MNetSoft.Games.LetterBoard
import MNetSoft.Ownu.Cgi
import MNetSoft.Ownu.Fields
import MNetSoft.Ownu.Newuser
import MNetSoft.Ownu.Layout
import MNetSoft.Ownu.Accept
import MNetSoft.Ownu.Expand
import MNetSoft.Ownu.Printf
import MNetSoft.Ownu.Wrap
import MNetSoft.Ownu.Clean
